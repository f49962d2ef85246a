import IcLir.Proofs.CompileOutcome
import IcLir.Proofs.DefinitionRules

/-
  Layouts agree with the scope tree. Whatever the definition stage leaves can be laid out, and
  the layout of a class says about its members what a look-up in its scope says: which of them
  are fields and methods, who declares a method and whether it has a slot (`Agrees`). Offsets
  and slots are numbered without gaps, so a layout that keeps those of another one has to put
  everything new above them (`Continues`).
-/

namespace IcLir

namespace ClassLayout

variable {names : List String} {l : ClassLayout} {n : Nat}

/-- A field has as its offset its place among the fields, counted from 1. -/
theorem FieldsInOrder.offset?_iff (h : l.FieldsInOrder names) {name : String} :
    l.offset? name = some n ↔ ∃ i, n = i + 1 ∧ names[i]? = some name := by
  unfold offset?
  rw [OrderedMap.get?_eq_some_iff_getElem?, h.keys, h.values]
  constructor
  · intro hi
    obtain ⟨i, hname, hn⟩ := hi
    obtain ⟨hlt, hn⟩ := List.getElem?_eq_some_iff.mp hn
    rw [List.getElem_range'] at hn
    exact ⟨i, by omega, hname⟩
  · intro hi
    obtain ⟨i, rfl, hname⟩ := hi
    have hlt : i < names.length := (List.getElem?_eq_some_iff.mp hname).1
    refine ⟨i, hname, ?_⟩
    rw [List.getElem?_range' hlt]
    exact congrArg some (by omega)

theorem FieldsInOrder.nodup (h : l.FieldsInOrder names) :
    names.Nodup := h.keys ▸ l.fields.nodup_keys

theorem FieldsInOrder.offset_inj (h : l.FieldsInOrder names) {name name' : String}
    (hn : l.offset? name = some n) (hn' : l.offset? name' = some n) : name = name' := by
  obtain ⟨i, rfl, hi⟩ := h.offset?_iff.mp hn
  obtain ⟨j, hij, hj⟩ := h.offset?_iff.mp hn'
  obtain rfl : i = j := by omega
  exact Option.some.inj (hi.symm.trans hj)

theorem FieldsInOrder.exists_offset (h : l.FieldsInOrder names) (hpos : 0 < n)
    (hle : n ≤ names.length) : ∃ name, l.offset? name = some n := by
  have hlt : n - 1 < names.length := by omega
  exact ⟨_, h.offset?_iff.mpr ⟨n - 1, by omega, List.getElem?_eq_getElem hlt⟩⟩

/-- `l'` keeps what `l` has and puts what is new above all of it. -/
structure Continues (l l' : ClassLayout) : Prop extends Inherits l l' where
  newOffset : ∀ name n, l'.offset? name = some n → l.offset? name = none →
    ∀ name₀ n₀, l.offset? name₀ = some n₀ → n₀ < n
  newSlot : ∀ name e slot, l'.method? name = some e → e.slot = some slot →
    (∀ e₀, l.method? name = some e₀ → e₀.slot = none) →
    ∀ name₀ e₀ slot₀, l.method? name₀ = some e₀ → e₀.slot = some slot₀ → slot₀ < slot

/-- What is new finds the lower numbers taken. -/
theorem Inherits.continues {l' : ClassLayout} (h : Inherits l l') {names' : List String}
    (hfields : l.FieldsInOrder names) (hfields' : l'.FieldsInOrder names') (hslots : l.SlotsInOrder)
    (hslots' : l'.SlotsInOrder) : Continues l l' where
  toInherits := h
  newOffset name n hn hnew name₀ n₀ hn₀ := by
    apply Classical.byContradiction
    intro hge
    obtain ⟨i, rfl, _⟩ := hfields'.offset?_iff.mp hn
    obtain ⟨i₀, rfl, hi₀⟩ := hfields.offset?_iff.mp hn₀
    have hlt₀ : i₀ < names.length := (List.getElem?_eq_some_iff.mp hi₀).1
    obtain ⟨name₁, hname₁⟩ := hfields.exists_offset (n := i + 1) (by omega) (by omega)
    have heq : name₁ = name := hfields'.offset_inj (h.offset name₁ _ hname₁) hn
    rw [heq, hnew] at hname₁
    simp at hname₁
  newSlot name e slot he hslot hnew name₀ e₀ slot₀ he₀ hslot₀ := by
    apply Classical.byContradiction
    intro hge
    have hlt₀ : slot₀ < l.nextSlot :=
      (OrderedMap.lt_iff_of_range hslots).mpr ⟨name₀, e₀, he₀, hslot₀⟩
    have hlt : slot < l.nextSlot := by omega
    obtain ⟨name₁, e₁, he₁, hslot₁⟩ := (OrderedMap.lt_iff_of_range hslots).mp hlt
    obtain ⟨e₁', he₁', hsame⟩ := h.slot name₁ e₁ he₁
    have heq : name₁ = name :=
      OrderedMap.key_eq_of_range hslots' he₁' he (hsame.trans hslot₁) hslot
    rw [hnew e₁ (heq ▸ he₁)] at hslot₁
    simp at hslot₁

end ClassLayout

/-- The layout `l` of a class says the same as a look-up in its scope. -/
structure Context.Agrees (c : Context) (scope : ScopeId) (l : ClassLayout) : Prop where
  field : ∀ name, (∃ n, l.offset? name = some n) ↔
    ∃ s, c.scopes.lookupMember scope name = some s ∧ s.kind = .field
  method : ∀ name, (∃ e, l.method? name = some e) ↔
    ∃ s kind, c.scopes.lookupMember scope name = some s ∧ s.kind = .method kind
  /-- The owner of an entry is the class whose scope declares the method. -/
  entry : ∀ name e, l.method? name = some e → ∃ s owner,
    c.scopes.lookupMember scope name = some s ∧ s.kind = .method e.kind ∧ e.name = name ∧
      c.scopes.classOf? s.scope = some owner ∧ c.types.class? e.owner = some owner ∧
      ((∃ slot, e.slot = some slot) ↔ e.kind = .virtual)
  /-- The fields, inherited ones first, have the offsets from 1 on. -/
  offset : ∀ name n, l.offset? name = some n ↔
    ∃ i, n = i + 1 ∧ (c.scopes.fieldNames scope)[i]? = some name
  fields_nodup : (c.scopes.fieldNames scope).Nodup
  objectSize : l.objectSize = 4 * ((c.scopes.fieldNames scope).length + 1)
  /-- The slots are the places of the dispatch table, each that of one method. -/
  slot : ∀ slot, slot < l.dispatchTable.length ↔
    ∃ name e, l.method? name = some e ∧ e.slot = some slot
  slot_inj : ∀ name name' e e' slot, l.method? name = some e → l.method? name' = some e' →
    e.slot = some slot → e'.slot = some slot → name = name'
  dispatch : ∀ name e slot, l.method? name = some e → e.slot = some slot →
    l.dispatchTable[slot]? = some e.label

open Definition TypeTable ClassLayout

/-- A member that is found is declared by one of the classes. -/
theorem Definition.ClassesDefined.exists_declaring {classes : List ClassDecl} {d : Definition}
    (h : ClassesDefined classes d) {i : Nat} {k : ClassDecl} {scope parent : ScopeId}
    (hi : classes[i]? = some k) (hc : ClassDefined d k (classId i) scope parent) {name : String}
    {s : Symbol} (hs : d.scopes.lookupMember scope name = some s) :
    ∃ j k', classes[j]? = some k' ∧ d.scopes.classOf? s.scope = some (classId j) := by
  induction i using Nat.strongRecOn generalizing k scope parent with
  | ind i ih =>
    rw [hc.lookupMember_eq h.sound] at hs
    cases hget : (d.scopes.scope scope).get? name with
    | some s' =>
      rw [hget] at hs
      obtain rfl : s' = s := Option.some.inj hs
      refine ⟨i, k, hi, ?_⟩
      rw [(h.sound.symbols scope name s' hget).scope_eq, ScopeTree.classOf?, hc.kind]
    | none =>
      rw [hget, Option.none_or] at hs
      have hin := hc.liesIn
      unfold LiesIn at hin
      rcases h.table.superclass?_cases hi with hnone | ⟨j, b, hj, hb, hsome⟩
      · rw [hnone] at hin
        have hclass : (d.scopes.scope parent).isClass = false := by
          rw [show parent = ScopeTree.global from hin, SymbolTable.isClass, h.isGlobal]
          rfl
        rw [ScopeTree.lookupMember_of_not_isClass hclass] at hs
        simp at hs
      · rw [hsome] at hin
        obtain ⟨scope', parent', hb'⟩ := h.classDefined j b hb
        obtain rfl : scope' = parent := Option.some.inj (hb'.get?.symm.trans hin)
        exact ih j hj hb hb' hs

/-- A layout of a class agrees with its scope. -/
theorem Definition.ClassesDefined.agrees {classes : List ClassDecl} {c : Context}
    (h : ClassesDefined classes c.definition) {i : Nat} {k : ClassDecl} {scope parent : ScopeId}
    (hi : classes[i]? = some k) (hc : ClassDefined c.definition k (classId i) scope parent)
    {l : ClassLayout} (hl : LayoutOf c.definition k scope l) : c.Agrees scope l where
  field name := by
    constructor
    · intro hn
      obtain ⟨n, hn⟩ := hn
      exact hl.lays.offset name n hn
    · intro hs
      obtain ⟨s, hs, hk⟩ := hs
      exact hl.lays.field name s hs hk
  method name := by
    constructor
    · intro he
      obtain ⟨e, he⟩ := he
      exact hl.lays.entry name e he
    · intro hs
      obtain ⟨s, kind, hs, hk⟩ := hs
      obtain ⟨e, he, _⟩ := hl.lays.method name s kind hs hk
      exact ⟨e, he⟩
  entry name e he := by
    obtain ⟨s, kind, hs, hk⟩ := hl.lays.entry name e he
    obtain ⟨e', he', hname, howner, hkind, hslot⟩ := hl.lays.method name s kind hs hk
    obtain rfl : e = e' := Option.some.inj (he.symm.trans he')
    obtain ⟨j, b, hj, hclass⟩ := h.exists_declaring hi hc hs
    have hownerName : e.owner = b.name.name := by
      unfold ownerName at howner
      rw [hclass, Option.bind_some, h.declarations j b hj] at howner
      exact (Option.some.inj howner).symm
    refine ⟨s, classId j, hs, hkind ▸ hk, hname, hclass, hownerName ▸ h.table.class? j b hj, ?_⟩
    rw [← Option.isSome_iff_exists, hslot, hkind]
    cases kind <;> simp [MethodKind.isStatic]
  offset _ _ := hl.fields.offset?_iff
  fields_nodup := hl.fields.nodup
  objectSize := by
    rw [ClassLayout.objectSize, OrderedMap.size_eq_length_keys, hl.fields.keys]
    rfl
  slot _ := by
    rw [hl.slots.length_dispatchTable]
    exact OrderedMap.lt_iff_of_range hl.slots
  slot_inj _ _ _ _ _ he he' hslot hslot' := OrderedMap.key_eq_of_range hl.slots he he' hslot hslot'
  dispatch _ _ _ he hslot := hl.slots.getElem?_dispatchTable he hslot

/-- What the definition stage leaves can be laid out. The layout of every class agrees with its
    scope, and continues the layout of each of its superclasses. -/
theorem layouts_agree_with_scopes {p : Program} {options : Options} {c : Context}
    (h : Context.define p (.initial options) = .ok () c) :
    ∃ table, LayoutTable.build c.types c.scopes = .ok table ∧
      ∀ type, c.types.isClass type = true → ∃ scope l,
        c.scopes.classScopes.get? type = some scope ∧ table.get? type = some l ∧
          c.Agrees scope l ∧
          ∀ base ∈ c.types.ancestors type, ∃ l', table.get? base = some l' ∧ l'.Continues l := by
  have hdefined := (classesFilled_of_define h).classesDefined
  obtain ⟨table, hbuild, hlaid⟩ := exists_build hdefined
  refine ⟨table, hbuild, fun type htype => ?_⟩
  -- every class has a layout, and so has each of its superclasses
  have hof : ∀ i k, p.classes[i]? = some k → ∃ scope parent l,
      ClassDefined c.definition k (classId i) scope parent ∧
        table.get? (classId i) = some l ∧ LayoutOf c.definition k scope l := by
    intro i k hi
    obtain ⟨scope, parent, hc⟩ := hdefined.classDefined i k hi
    obtain ⟨l, hl, hof, _⟩ := hlaid i k scope parent (List.getElem?_eq_some_iff.mp hi).1 hi hc
    exact ⟨scope, parent, l, hc, hl, hof⟩
  obtain ⟨i, k, hi, rfl⟩ := hdefined.table.isClass type htype
  obtain ⟨scope, parent, l, hc, hl, hlayout⟩ := hof i k hi
  refine ⟨scope, l, hc.get?, hl, hdefined.agrees hi hc hlayout, fun base hbase => ?_⟩
  obtain ⟨j, b, hj, hb, rfl⟩ := hdefined.table.mem_ancestors hi hbase
  obtain ⟨_, _, l', _, hl', hlayout'⟩ := hof j b hb
  have hsub : c.types.isSubtype (classId i) (classId j) = true := by
    rw [isSubtype, if_neg fun heq => Nat.ne_of_gt hj (classId_inj heq),
      if_neg (classId_ne_null i)]
    simpa using hbase
  obtain ⟨l'', hl'', hinherits⟩ := hlaid.inherits_of_isSubtype hdefined hi hsub hl'
  obtain rfl : l = l'' := Option.some.inj (hl.symm.trans hl'')
  exact ⟨l', hl', hinherits.continues hlayout'.fields hlayout.fields hlayout'.slots hlayout.slots⟩

theorem layouts_agree_with_scopes_shapes :
    ∃ c, Context.define Shapes.program (.initial {}) = .ok () c ∧
      ∃ table, LayoutTable.build c.types c.scopes = .ok table ∧
        ∀ type, c.types.isClass type = true → ∃ scope l,
          c.scopes.classScopes.get? type = some scope ∧ table.get? type = some l ∧
            c.Agrees scope l ∧
            ∀ base ∈ c.types.ancestors type, ∃ l', table.get? base = some l' ∧ l'.Continues l := by
  obtain ⟨c, _, hdefine, _⟩ := exists_stages_of_analyzed Shapes.analyzed_program
  exact ⟨c, hdefine, layouts_agree_with_scopes hdefine⟩

end IcLir
