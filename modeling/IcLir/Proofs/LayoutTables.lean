import IcLir.Proofs.ClassLayouts
import IcLir.Proofs.ProgramScopes

/-
  The layouts of a defined program. They can always be built: a superclass is declared before
  its subclasses and every class has a scope (`exists_build`). The layout of a class holds the
  members that its scope has or inherits (`LayoutOf`), and everything in the layout of its
  superclass is in the same place in it.
-/

namespace IcLir

/-- The names of the fields of a class scope and of the class scopes around it: the outermost
    class first, each in the order of declaration. -/
def ScopeTree.fieldNames (t : ScopeTree) (id : ScopeId) : List String :=
  ((t.path id).takeWhile fun s => (t.scope s).isClass).reverse.flatMap fun s =>
    (t.scope s).symbols.values.filterMap ClassLayout.fieldName?

theorem ScopeTree.fieldNames_of_not_isClass {t : ScopeTree} {id : ScopeId}
    (h : (t.scope id).isClass = false) : t.fieldNames id = [] := by
  unfold fieldNames path
  rw [List.takeWhile_cons, if_neg (by simp [h])]
  rfl

theorem ScopeTree.fieldNames_eq_append {t : ScopeTree} {id parent : ScopeId}
    (hc : (t.scope id).isClass = true) (he : (t.scope id).enclosing = t.path parent) :
    t.fieldNames id =
      t.fieldNames parent ++ (t.scope id).symbols.values.filterMap ClassLayout.fieldName? := by
  unfold fieldNames
  rw [path, he, List.takeWhile_cons, if_pos hc, List.reverse_cons, List.flatMap_append]
  simp

namespace Definition

open TypeTable ClassLayout

variable {classes : List ClassDecl} {d : Definition} {types : TypeTable} {table : LayoutTable}
    {t : ScopeTree} {scope : ScopeId} {i : Nat} {c : ClassDecl}

/-- The name of the class that declares a member. -/
def ownerName (d : Definition) (s : Symbol) : Option String :=
  ((d.scopes.classOf? s.scope).bind d.declarations.get?).map (·.name.name)

/-- `l` is a layout of class `c`, whose scope is `scope`. -/
structure LayoutOf (d : Definition) (c : ClassDecl) (scope : ScopeId) (l : ClassLayout) :
    Prop where
  name : l.name = c.name.name
  lays : l.Lays (d.scopes.lookupMember scope) d.ownerName
  slots : l.SlotsInOrder
  fields : l.FieldsInOrder (d.scopes.fieldNames scope)

/-! ## The symbols of a class scope -/

/-- The symbols of a scope are found by their names. -/
theorem find?_values (hfit : t.SymbolsFit) (scope : ScopeId) (name : String) :
    (t.scope scope).symbols.values.find? (·.name = name) = (t.scope scope).get? name := by
  have hnames : ∀ e ∈ (t.scope scope).symbols.entries, e.2.name = e.1 := fun e he =>
    (hfit scope e.1 e.2 (OrderedMap.get?_eq_some_iff.mpr he)).name_eq
  unfold SymbolTable.get? OrderedMap.get? OrderedMap.values
  rw [List.find?_map]
  refine congrArg (Option.map Prod.snd) ?_
  generalize (t.scope scope).symbols.entries = entries at hnames
  induction entries with
  | nil => rfl
  | cons e es ih =>
    rw [List.find?_cons, List.find?_cons, ih fun e' he' => hnames e' (List.mem_cons_of_mem _ he')]
    simp only [Function.comp_apply, hnames e (by simp)]

theorem nodup_names_values (hfit : t.SymbolsFit) (scope : ScopeId) :
    ((t.scope scope).symbols.values.map (·.name)).Nodup := by
  have hnames : (t.scope scope).symbols.values.map (·.name) = (t.scope scope).symbols.keys := by
    unfold OrderedMap.values OrderedMap.keys
    rw [List.map_map]
    refine List.map_congr_left fun e he => ?_
    exact (hfit scope e.1 e.2 (OrderedMap.get?_eq_some_iff.mpr he)).name_eq
  rw [hnames]
  exact (t.scope scope).symbols.nodup_keys

theorem get?_of_mem_values (hfit : t.SymbolsFit) {s : Symbol}
    (hs : s ∈ (t.scope scope).symbols.values) : (t.scope scope).get? s.name = some s := by
  obtain ⟨e, he, rfl⟩ := List.mem_map.mp hs
  have hget := OrderedMap.get?_eq_some_iff.mpr he
  rw [(hfit scope e.1 e.2 hget).name_eq]
  exact hget

section

variable {classes : List ClassDecl} {d : Definition} {i : Nat} {c : ClassDecl}
  {scope parent : ScopeId}

/-- Each member of a class may be added to the layout of its superclass. -/
theorem declarable_of_mem_values (h : ClassesDefined classes d) (hi : classes[i]? = some c)
    (hc : ClassDefined d c (classId i) scope parent) {s : Symbol}
    (hs : s ∈ (d.scopes.scope scope).symbols.values) :
    Declarable (d.scopes.lookupMember parent) s ∧ s.kind.isMember = true ∧
      d.ownerName s = some c.name.name := by
  have hget := get?_of_mem_values h.sound.symbols hs
  have hfits := h.sound.symbols scope s.name s hget
  refine ⟨fun known hknown => ?_, ?_, ?_⟩
  · rcases hc.members.member s.name s hget with ⟨_, hnone⟩ | ⟨m, _, _, hk, hover⟩
    · rw [hnone] at hknown
      simp at hknown
    · obtain ⟨kind, hkind, hstatic⟩ := (hover known hknown).kind
      exact ⟨m.kind, kind, hk, hkind, hstatic⟩
  · have hk := hfits.kind
    rw [hc.kind] at hk
    exact hk
  · unfold ownerName ScopeTree.classOf?
    rw [hfits.scope_eq, hc.kind]
    change (d.declarations.get? (classId i)).map _ = _
    rw [h.declarations i c hi]
    rfl

/-- A class lays out its own members on top of those of its superclass. -/
theorem layoutOf_foldl (h : ClassesDefined classes d) (hi : classes[i]? = some c)
    (hc : ClassDefined d c (classId i) scope parent) {l : ClassLayout}
    (hname : l.name = c.name.name)
    (hlays : l.Lays (d.scopes.lookupMember parent) d.ownerName) (hslots : l.SlotsInOrder)
    (hfields : l.FieldsInOrder (d.scopes.fieldNames parent)) :
    LayoutOf d c scope ((d.scopes.scope scope).symbols.values.foldl ClassLayout.addSymbol l) ∧
      Inherits l ((d.scopes.scope scope).symbols.values.foldl ClassLayout.addSymbol l) := by
  have hfit := h.sound.symbols
  obtain ⟨hlays', hinherits, hslots'⟩ := hlays.foldl_addSymbol hslots
    (nodup_names_values hfit scope) (by
      intro s hs
      rw [hname]
      exact declarable_of_mem_values h hi hc hs)
  have hfields' : ((d.scopes.scope scope).symbols.values.foldl ClassLayout.addSymbol
      l).FieldsInOrder (d.scopes.fieldNames scope) := by
    rw [ScopeTree.fieldNames_eq_append hc.isClass hc.enclosing]
    refine hfields.foldl_addSymbol (nodup_names_values hfit scope) fun s hs _ => ?_
    have hnone := hlays.offset?_eq_none (declarable_of_mem_values h hi hc hs).1
    rw [← hfields.keys]
    exact (OrderedMap.get?_eq_none_iff ..).mp hnone
  refine ⟨⟨?_, ?_, hslots', hfields'⟩, hinherits⟩
  · exact (name_foldl_addSymbol _ l).trans hname
  · have hfind : (fun name => ((d.scopes.scope scope).symbols.values.find? (·.name = name)).or
        (d.scopes.lookupMember parent name)) = d.scopes.lookupMember scope := by
      funext name
      rw [find?_values hfit, hc.lookupMember_eq h.sound]
    rw [← hfind]
    exact hlays'

end

/-! ## Building the table -/

/-- The first `n` classes have their layouts. -/
def LaidOut (d : Definition) (classes : List ClassDecl) (n : Nat) (table : LayoutTable) : Prop :=
  ∀ i c scope parent, i < n → classes[i]? = some c → ClassDefined d c (classId i) scope parent →
    ∃ l, table.get? (classId i) = some l ∧ LayoutOf d c scope l ∧
      ∀ base, d.types.superclass? (classId i) = some base →
        ∃ l', table.get? base = some l' ∧ Inherits l' l

/-- The layout that a class starts from: that of its superclass, if it has one. -/
theorem exists_start (h : ClassesDefined classes d) (hi : classes[i]? = some c)
    (ht : LaidOut d classes i table) {parent : ScopeId}
    (hc : ClassDefined d c (classId i) scope parent) :
    ∃ start, LayoutTable.start table d.types (classId i) c.name.name = .ok start ∧
      start.name = c.name.name ∧ start.Lays (d.scopes.lookupMember parent) d.ownerName ∧
      start.SlotsInOrder ∧ start.FieldsInOrder (d.scopes.fieldNames parent) ∧
      ∀ base, d.types.superclass? (classId i) = some base →
        ∃ l, table.get? base = some l ∧ Inherits l start := by
  have hin := hc.liesIn
  unfold LiesIn at hin
  unfold LayoutTable.start
  rcases h.table.superclass?_cases hi with hnone | ⟨j, b, hj, hb, hsome⟩
  · rw [hnone] at hin ⊢
    have hclass : (d.scopes.scope parent).isClass = false := by
      rw [hin, SymbolTable.isClass, h.isGlobal]
      rfl
    refine ⟨_, rfl, rfl, ?_, slotsInOrder_root .., ?_, by simp⟩
    · have hmember : d.scopes.lookupMember parent = fun _ => none := by
        funext name
        exact ScopeTree.lookupMember_of_not_isClass hclass name
      rw [hmember]
      exact lays_root ..
    · rw [ScopeTree.fieldNames_of_not_isClass hclass]
      exact fieldsInOrder_root ..
  · rw [hsome] at hin ⊢
    obtain ⟨scope', parent', hb'⟩ := h.classDefined j b hb
    obtain rfl : scope' = parent := Option.some.inj (hb'.get?.symm.trans hin)
    obtain ⟨l, hl, hof, _⟩ := ht j b scope' parent' hj hb hb'
    dsimp only
    rw [hl]
    refine ⟨l.derive (classId i) c.name.name, rfl, rfl, ?_, hof.slots,
      ⟨hof.fields.keys, hof.fields.values⟩, ?_⟩
    · exact ⟨hof.lays.field, hof.lays.offset, hof.lays.method, hof.lays.entry⟩
    · intro base hbase
      obtain rfl := Option.some.inj hbase
      exact ⟨l, hl, fun _ _ hn => hn, fun _ e he => ⟨e, he, rfl⟩⟩

theorem addClass_eq_ok {scopes : ScopeTree} {type : TypeId} {name : String} {start : ClassLayout}
    (hstart : table.start types type name = .ok start)
    (hscope : scopes.classScopes.get? type = some scope) :
    table.addClass types scopes (type, name) =
      .ok (table.insert type ((scopes.scope scope).symbols.values.foldl addSymbol start)) := by
  unfold LayoutTable.addClass
  rw [hstart]
  simp only [bind, Except.bind, hscope]

theorem exists_addClass (h : ClassesDefined classes d) (hi : classes[i]? = some c)
    (ht : LaidOut d classes i table) :
    ∃ table', table.addClass d.types d.scopes (classId i, c.name.name) = .ok table' ∧
      LaidOut d classes (i + 1) table' := by
  obtain ⟨scope, parent, hc⟩ := h.classDefined i c hi
  obtain ⟨start, hstart, hname, hlays, hslots, hfields, hbase⟩ := exists_start h hi ht hc
  obtain ⟨hof, hinherits⟩ := layoutOf_foldl h hi hc hname hlays hslots hfields
  refine ⟨_, addClass_eq_ok hstart hc.get?, ?_⟩
  intro j c' scope' parent' hj hj' hc'
  -- the new layout displaces none of those before it
  have hkept : ∀ base, d.types.superclass? (classId j) = some base → base ≠ classId i :=
    superclass?_ne h.table hj' (Nat.le_of_lt_succ hj)
  rcases Nat.lt_succ_iff_lt_or_eq.mp hj with hlt | rfl
  · obtain ⟨l, hl, hof', hbase'⟩ := ht j c' scope' parent' hlt hj' hc'
    have hne : classId j ≠ classId i := fun heq => Nat.ne_of_lt hlt (classId_inj heq)
    refine ⟨l, (OrderedMap.get?_insert_of_ne _ _ hne).trans hl, hof', fun base hsuper => ?_⟩
    obtain ⟨l', hl', hinherits'⟩ := hbase' base hsuper
    exact ⟨l', (OrderedMap.get?_insert_of_ne _ _ (hkept base hsuper)).trans hl', hinherits'⟩
  · obtain rfl : c = c' := Option.some.inj (hi.symm.trans hj')
    obtain rfl : scope = scope' := Option.some.inj (hc.get?.symm.trans hc'.get?)
    refine ⟨_, OrderedMap.get?_insert_self .., hof, fun base hsuper => ?_⟩
    obtain ⟨l', hl', hinherits'⟩ := hbase base hsuper
    exact ⟨l', (OrderedMap.get?_insert_of_ne _ _ (hkept base hsuper)).trans hl',
      hinherits'.trans hinherits⟩

/-- What each class adds on to the table of those before it, the whole table has. -/
theorem exists_build_of (h : ClassesDefined classes d) (inv : Nat → LayoutTable → Prop)
    (hstart : inv 0 .empty) (hstep : ∀ i c table, classes[i]? = some c → inv i table →
      ∃ table', table.addClass d.types d.scopes (classId i, c.name.name) = .ok table' ∧
        inv (i + 1) table') :
    ∃ table, LayoutTable.build d.types d.scopes = .ok table ∧ inv classes.length table := by
  have key : ∀ rest done table, classes = done ++ rest → inv done.length table →
      ∃ table', ((rest.zipIdx done.length).map fun c => (classId c.2, c.1.name.name)).foldlM
        (LayoutTable.addClass d.types d.scopes) table = .ok table' ∧
          inv classes.length table' := by
    intro rest
    induction rest with
    | nil =>
      intro done table hclasses ht
      rw [List.append_nil] at hclasses
      exact ⟨table, rfl, hclasses ▸ ht⟩
    | cons c rest ih =>
      intro done table hclasses ht
      have hi : classes[done.length]? = some c := by simp [hclasses]
      obtain ⟨table₁, hadd, ht₁⟩ := hstep _ c table hi ht
      obtain ⟨table₂, hfold, ht₂⟩ := ih (done ++ [c]) table₁ (by simp [hclasses])
        (by simpa using ht₁)
      refine ⟨table₂, ?_, ht₂⟩
      rw [List.zipIdx_cons, List.map_cons, List.foldlM_cons]
      dsimp only
      rw [hadd]
      rw [List.length_append, List.length_singleton] at hfold
      exact hfold
  obtain ⟨table, hbuild, ht⟩ := key classes [] .empty rfl hstart
  refine ⟨table, ?_, ht⟩
  unfold LayoutTable.build
  rw [h.table.classes_eq]
  exact hbuild

/-- The layouts of a defined program can be built. -/
theorem exists_build (h : ClassesDefined classes d) :
    ∃ table, LayoutTable.build d.types d.scopes = .ok table ∧
      LaidOut d classes classes.length table := by
  refine exists_build_of h (LaidOut d classes) ?_ fun i c table hi ht => exists_addClass h hi ht
  intro i _ _ _ hi
  exact absurd hi (Nat.not_lt_zero i)

/-- The layout of a class holds everything in the layout of each class above it, in the same
    place. -/
theorem LaidOut.inherits_of_isSubtype (ht : LaidOut d classes classes.length table)
    (h : ClassesDefined classes d) {j : Nat} (hj : classes[j]? = some c)
    (hsub : d.types.isSubtype (classId j) (classId i) = true) {l : ClassLayout}
    (hl : table.get? (classId i) = some l) :
    ∃ l', table.get? (classId j) = some l' ∧ Inherits l l' := by
  let motive (n : Nat) : Prop := ∃ l', table.get? (classId n) = some l' ∧ Inherits l l'
  refine h.table.subclass_induction (motive := motive) (i := i) ⟨l, hl, .refl l⟩ ?_ hj hsub
  intro n n' b hn hsuper ih
  obtain ⟨l₁, hl₁, hinherits₁⟩ := ih
  have hlt : n < classes.length := (List.getElem?_eq_some_iff.mp hn).1
  obtain ⟨scope, parent, hclass⟩ := h.classDefined n b hn
  obtain ⟨l₂, hl₂, _, hbase⟩ := ht n b scope parent hlt hn hclass
  obtain ⟨l₁', hl₁', hinherits₂⟩ := hbase _ hsuper
  obtain rfl : l₁ = l₁' := Option.some.inj (hl₁.symm.trans hl₁')
  exact ⟨l₂, hl₂, hinherits₁.trans hinherits₂⟩

end Definition

end IcLir
