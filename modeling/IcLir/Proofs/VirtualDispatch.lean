import IcLir.Proofs.CompileOutcome

/-
  Virtual dispatch. A call through class C names a slot of the dispatch table and binds its
  arguments to named slots; the object may be of any subclass D. The entry in that slot of D's
  table is the label of the nearest declaration from D upward, its code is part of the program,
  and its parameters have the names that the caller has bound.
-/

namespace IcLir

open Pass Definition TypeTable ClassLayout

namespace Context.Accepts

variable {c : Context} {p : Program}

/-- The layout of a class holds everything in the layout of each class above it, in the same
    place. -/
theorem inherits_of_isSubtype (h : c.Accepts p) {i j : Nat} {k : ClassDecl}
    (hj : p.classes[j]? = some k) (hsub : c.types.isSubtype (classId j) (classId i) = true)
    {l : ClassLayout} (hl : c.layouts.get? (classId i) = some l) :
    ∃ l', c.layouts.get? (classId j) = some l' ∧ Inherits l l' :=
  h.laidOut.inherits_of_isSubtype h.defined.classesDefined hj hsub hl

/-- A virtual method is not the entry method. -/
theorem isEntry_eq_false (h : c.Accepts p) (hp : p.DistinctNodes) {i : Nat} {k : ClassDecl}
    (hi : p.classes[i]? = some k) {m : MethodDecl} (hm : m ∈ k.methods)
    (hkind : m.kind = .virtual) : c.isEntry m = false := by
  obtain ⟨e, he, b, hb, hmem, hstatic⟩ := h.entry
  rw [Context.isEntry, he, Option.any_some, decide_eq_false_iff_not]
  intro hid
  have hin : m ∈ p.methods := List.mem_flatMap.mpr ⟨k, List.mem_of_getElem? hi, hm⟩
  have hin' : e.method ∈ p.methods := List.mem_flatMap.mpr ⟨b, hb, hmem⟩
  have heq : e.method = m := hp.method_ext hin' hin hid
  rw [heq, hkind] at hstatic
  simp at hstatic

end Context.Accepts

/-! ## The code of a method -/

theorem Lowering.label_of_isRoutineOf {c : Context} {strategy : Strategy} {i : Nat}
    {k : ClassDecl} {m : MethodDecl} {r : Routine}
    (h : Lowering.IsRoutineOf c strategy i k m r) (hentry : c.isEntry m = false) :
    r.label = Lowering.methodLabel k.name.name m.name.name := by
  obtain ⟨s, s', hr⟩ := h
  unfold Lowering.lowerMethod at hr
  obtain ⟨scope, s₁, _, hr⟩ := bind_eq_ok.mp hr
  obtain ⟨body, s₂, _, hr⟩ := bind_eq_ok.mp hr
  obtain ⟨rfl, _⟩ := EStateM.Result.ok.inj hr
  exact if_neg (by simp [hentry])

/-- Every routine stands in the text of the program. -/
theorem Assembly.exists_render_eq {a : Assembly} {r : Routine} (hr : r ∈ a.methods) :
    ∃ before after, a.render = before ++ r.listing.text ++ after := by
  obtain ⟨head, hhead⟩ : ∃ head, a.render = head ++
      String.join (a.methods.map fun m => m.listing.text ++ "\n") ++
      "# main method\n" ++ a.main.listing.text ++ "\n" ++ Guard.exitLabel ++ ":\n" := ⟨_, rfl⟩
  obtain ⟨front, back, hmethods⟩ := List.append_of_mem hr
  rw [hhead, hmethods, List.map_append, List.map_cons, String.join_append, String.join_cons]
  refine ⟨head ++ String.join (front.map fun m => m.listing.text ++ "\n"), "\n" ++
    String.join (back.map fun m => m.listing.text ++ "\n") ++ "# main method\n" ++
    a.main.listing.text ++ "\n" ++ Guard.exitLabel ++ ":\n", ?_⟩
  simp only [String.append_assoc]

/-! ## Dispatch -/

/-- What stands in the dispatch table of a class for a virtual method. -/
structure Dispatches (c : Context) (p : Program) (type : TypeId) (name : String) (slot : Nat)
    (paramNames : List String) (i : Nat) (owner : ClassDecl) (m : MethodDecl) : Prop where
  class_eq : p.classes[i]? = some owner
  mem : m ∈ owner.methods
  kind : m.kind = .virtual
  name_eq : m.name.name = name
  method? : owner.method? name = some m
  nearest : c.definition.nearestDeclaring? type name = some owner
  paramNames_eq : m.paramNames = paramNames
  entry : ∃ l, c.layouts.get? type = some l ∧
    l.dispatchTable[slot]? = some (Lowering.methodLabel owner.name.name name)
  methodScope : ∃ scope, c.scopes.methodScopes.get? m.id = some scope ∧ c.scopes.depth scope = 2

namespace Context.Accepts

variable {c : Context} {p : Program} {i j : Nat} {k k' : ClassDecl} {scope parent : ScopeId}
  {name : String} {symbol : Symbol}

/-- The slot of a virtual method leads to the nearest declaration in every subclass. -/
theorem exists_dispatches (h : c.Accepts p)
    (hclass : ClassOf c.definition k (classId i) scope parent)
    (hj : p.classes[j]? = some k') (hsub : c.types.isSubtype (classId j) (classId i) = true)
    {paramNames : List String} (hs : c.scopes.lookupMember scope name = some symbol)
    (hvirtual : IsVirtual c.definition name paramNames symbol) {l : ClassLayout}
    (hl : c.layouts.get? (classId i) = some l) {e : MethodEntry} (he : l.method? name = some e)
    {slot : Nat} (hslot : e.slot = some slot) :
    ∃ o owner m, Dispatches c p (classId j) name slot paramNames o owner m := by
  obtain ⟨scope', parent', hclass'⟩ := h.defined.classOf j k' hj
  obtain ⟨symbol', hs', hkind', m', hm', hparams⟩ :=
    isVirtual_of_isSubtype h.defined hclass hj hclass' hsub hs hvirtual
  obtain ⟨o, owner, m, hname, hdecl, hnearest⟩ :=
    exists_declaration h.defined hj hclass' hs' hkind'
  -- the entry of the subclass names the owner and has the slot of the superclass
  obtain ⟨l', hl', hinherits⟩ := h.inherits_of_isSubtype hj hsub hl
  obtain ⟨e', he', hslot'⟩ := hinherits.slot name e he
  obtain ⟨l'', hl'', hof⟩ := h.exists_layout hj hclass'
  obtain rfl : l' = l'' := Option.some.inj (hl'.symm.trans hl'')
  obtain ⟨e'', he'', hename, howner, _, _⟩ := hof.lays.method name symbol' .virtual hs' hkind'
  obtain rfl : e' = e'' := Option.some.inj (he'.symm.trans he'')
  have howner' : e'.owner = owner.name.name := by
    unfold ownerName at howner
    rw [hdecl.owner] at howner
    exact (Option.some.inj howner).symm
  have hlabel : e'.label = Lowering.methodLabel owner.name.name name := by
    rw [MethodEntry.label, howner', hename]
    rfl
  obtain rfl : m = m' := Option.some.inj ((hname ▸ hdecl.declaration).symm.trans hm')
  obtain ⟨oscope, oparent, mscope, hoclass, hmethod⟩ := hdecl.methodOf
  refine ⟨o, owner, m, hdecl.class_eq, hdecl.mem, ?_, hname, ?_, hnearest, hparams, ?_, ?_⟩
  · exact SymbolKind.method.inj (hdecl.kind.symm.trans hkind')
  · exact hname ▸ hoclass.members.method?_eq hdecl.mem
  · refine ⟨l', hl', ?_⟩
    rw [← hlabel]
    exact hof.slots.getElem?_dispatchTable he' (hslot'.trans hslot)
  · exact ⟨mscope, hmethod.get?, hmethod.depth.trans (by rw [hoclass.depth])⟩

/-- The code of the method that a slot leads to is in the program, under the label in the
    dispatch table. -/
theorem exists_emitted (h : c.Accepts p) (hp : p.DistinctNodes) {type : TypeId} {slot o : Nat}
    {paramNames : List String} {owner : ClassDecl} {m : MethodDecl}
    (hd : Dispatches c p type name slot paramNames o owner m) (strategy : Strategy) :
    ∃ assembly, c.generate strategy p = .ok assembly ∧ ∃ r ∈ assembly.methods,
      r.label = Lowering.methodLabel owner.name.name name ∧
        Lowering.IsRoutineOf c strategy o owner m r ∧
        ∃ before after, assembly.render = before ++ r.listing.text ++ after := by
  obtain ⟨assembly, hgenerate, hcovers⟩ := h.exists_generate hp strategy
  have hentry := h.isEntry_eq_false hp hd.class_eq hd.mem hd.kind
  obtain ⟨r, hr, hmem⟩ := hcovers o owner m hd.class_eq hd.mem (by rw [hd.kind]; decide)
  rw [hentry, if_neg (by decide)] at hmem
  refine ⟨assembly, hgenerate, r, hmem, ?_, hr, Assembly.exists_render_eq hmem⟩
  rw [Lowering.label_of_isRoutineOf hr hentry, hd.name_eq]

/-- The line that calls a virtual method. -/
theorem exists_virtualCallLine (h : c.Accepts p) (hi : p.classes[i]? = some k)
    (hclass : ClassOf c.definition k (classId i) scope parent)
    (hs : c.scopes.lookupMember scope name = some symbol)
    (hk : symbol.kind = .method .virtual) :
    ∃ l e slot m, c.layouts.get? (classId i) = some l ∧ l.method? name = some e ∧
      e.slot = some slot ∧ c.definition.declaration? symbol name = some m ∧
      ∀ (env : LowerEnv), env.context = c → ∀ d supply, ∃ callee bindings,
        env.callee (classId i) name supply = .ok callee supply ∧
        env.virtualCallLine callee d supply =
          .ok (.instr (.virtualCall (.general d) slot bindings (callee.result d))) supply ∧
        bindings.map Prod.fst = m.paramNames.map (Lowering.slotName · 2) := by
  obtain ⟨l, hl, hof⟩ := h.exists_layout hi hclass
  obtain ⟨e, he, _, _, _, hslot⟩ := hof.lays.method name symbol .virtual hs hk
  obtain ⟨slot, hslot⟩ := Option.isSome_iff_exists.mp hslot
  obtain ⟨o, owner, m, hname, hdecl, _⟩ := exists_declaration h.defined hi hclass hs hk
  refine ⟨l, e, slot, m, hl, he, hslot, hname ▸ hdecl.declaration, ?_⟩
  rintro env rfl d supply
  have hcalls : Meets CompileError.Never (env.callee (classId i) name) supply fun callee s =>
      s = supply ∧ LowerEnv.Resolves env p i symbol .virtual callee ∧
        callee.method.name.name = name :=
    LowerEnv.meets_callee h hi hclass hs hk fun callee hr hn => ⟨rfl, hr, hn⟩
  obtain ⟨callee, supply₁, hcallee, rfl, hr, hcname⟩ := hcalls.exists_ok
  have hlines : Meets CompileError.Never (env.virtualCallLine callee d) supply₁ fun line s =>
      s = supply₁ ∧ ∃ slot bindings, callee.entry.slot = some slot ∧
        bindings.map Prod.fst = callee.method.paramNames.map (Lowering.slotName · 2) ∧
        line = .instr (.virtualCall (.general d) slot bindings (callee.result d)) :=
    LowerEnv.meets_virtualCallLine hr rfl d fun slot bindings hslot hnames =>
      ⟨rfl, slot, bindings, hslot, hnames, rfl⟩
  obtain ⟨line, supply₂, hline, rfl, slot', bindings, hslot', hnames, rfl⟩ := hlines.exists_ok
  obtain ⟨l', hl', he'⟩ := hr.entry
  obtain ⟨o', owner', hdecl'⟩ := hr.declared
  obtain rfl : l = l' := Option.some.inj (hl.symm.trans hl')
  rw [hcname, he] at he'
  rw [← Option.some.inj he', hslot] at hslot'
  obtain rfl := Option.some.inj hslot'
  have hm : callee.method = m :=
    Option.some.inj ((hcname ▸ hdecl'.declaration).symm.trans (hname ▸ hdecl.declaration))
  exact ⟨callee, bindings, hcallee, hline, hm ▸ hnames⟩

end Context.Accepts

/-- A virtual call reaches the nearest declaration of the object's class, with its parameters
    bound by their names. -/
theorem virtual_call_reaches_nearest {p : Program} (hp : p.DistinctNodes) {options : Options}
    {c : Context} (hc : analyzed options p = .ok c) {static dynamic : TypeId}
    (hstatic : c.types.isClass static = true) (hdynamic : c.types.isClass dynamic = true)
    (hsub : c.types.isSubtype dynamic static = true) {scope : ScopeId}
    (hscope : c.scopes.classScopes.get? static = some scope) {name : String} {symbol : Symbol}
    (hs : c.scopes.lookupMember scope name = some symbol)
    (hk : symbol.kind = .method .virtual) :
    ∃ l e slot l' owner m methodScope,
      c.layouts.get? static = some l ∧ l.method? name = some e ∧ e.slot = some slot ∧
      c.layouts.get? dynamic = some l' ∧
      c.definition.nearestDeclaring? dynamic name = some owner ∧
      owner.method? name = some m ∧
      l'.dispatchTable[slot]? = some (Lowering.methodLabel owner.name.name name) ∧
      (∀ strategy, ∃ assembly, c.generate strategy p = .ok assembly ∧
        ∃ r ∈ assembly.methods, r.label = Lowering.methodLabel owner.name.name name ∧
          (∃ i, p.classes[i]? = some owner ∧ Lowering.IsRoutineOf c strategy i owner m r) ∧
          ∃ before after, assembly.render = before ++ r.listing.text ++ after) ∧
      c.scopes.methodScopes.get? m.id = some methodScope ∧
      ∀ (env : LowerEnv), env.context = c → ∀ d supply, ∃ callee bindings,
        env.callee static name supply = .ok callee supply ∧
        env.virtualCallLine callee d supply =
          .ok (.instr (.virtualCall (.general d) slot bindings (callee.result d))) supply ∧
        bindings.map Prod.fst =
          m.params.map fun q => Lowering.slotName q.name.name (c.scopes.depth methodScope) := by
  have h := accepts_of_analyzed hp hc
  obtain ⟨i, k, hi, rfl⟩ := h.defined.table.isClass static hstatic
  obtain ⟨j, k', hj, rfl⟩ := h.defined.table.isClass dynamic hdynamic
  obtain ⟨scope', parent, hclass⟩ := h.defined.classOf i k hi
  obtain rfl : scope' = scope := Option.some.inj (hclass.get?.symm.trans hscope)
  obtain ⟨l, e, slot, m', hl, he, hslot, hm', hcall⟩ := h.exists_virtualCallLine hi hclass hs hk
  obtain ⟨o, owner, m, hd⟩ :=
    h.exists_dispatches hclass hj hsub hs ⟨hk, m', hm', rfl⟩ hl he hslot
  obtain ⟨l', hl', hentry⟩ := hd.entry
  obtain ⟨methodScope, hmethodScope, hdepth⟩ := hd.methodScope
  refine ⟨l, e, slot, l', owner, m, methodScope, hl, he, hslot, hl', hd.nearest, hd.method?,
    hentry, fun strategy => ?_, hmethodScope, fun env henv d supply => ?_⟩
  · obtain ⟨assembly, hgenerate, r, hr, hlabel, hroutine, htext⟩ := h.exists_emitted hp hd strategy
    exact ⟨assembly, hgenerate, r, hr, hlabel, ⟨o, hd.class_eq, hroutine⟩, htext⟩
  · obtain ⟨callee, bindings, hcallee, hline, hnames⟩ := hcall env henv d supply
    refine ⟨callee, bindings, hcallee, hline, ?_⟩
    rw [hnames, ← hd.paramNames_eq, hdepth, MethodDecl.paramNames, List.map_map]
    rfl

/-- A call of `area` through `Shape` on a `Square`: the classes have the types 5 and 6, and the
    scope of `Shape` is the first after the global one. -/
theorem virtual_call_reaches_nearest_area :
    ∃ l e slot l' owner m,
      Shapes.context.layouts.get? 5 = some l ∧ l.method? "area" = some e ∧ e.slot = some slot ∧
      Shapes.context.layouts.get? 6 = some l' ∧
      Shapes.context.definition.nearestDeclaring? 6 "area" = some owner ∧
      owner.method? "area" = some m ∧
      l'.dispatchTable[slot]? = some (Lowering.methodLabel owner.name.name "area") := by
  have hvirtual : (Shapes.context.scopes.lookupMember 1 "area").any
      (·.kind = .method .virtual) = true := by decide +kernel
  obtain ⟨symbol, hs, hk⟩ := (Option.any_eq_true _ _).mp hvirtual
  have hstatic : Shapes.context.types.isClass 5 = true := by decide +kernel
  have hdynamic : Shapes.context.types.isClass 6 = true := by decide +kernel
  have hsub : Shapes.context.types.isSubtype 6 5 = true := by decide +kernel
  have hscope : Shapes.context.scopes.classScopes.get? 5 = some 1 := by decide +kernel
  obtain ⟨l, e, slot, l', owner, m, _, hl, he, hslot, hl', hnearest, hm, hentry, _⟩ :=
    virtual_call_reaches_nearest Shapes.distinctNodes Shapes.analyzed_program hstatic hdynamic
      hsub hscope hs (of_decide_eq_true hk)
  exact ⟨l, e, slot, l', owner, m, hl, he, hslot, hl', hnearest, hm, hentry⟩

end IcLir
