import IcLir.Proofs.AcceptedPrograms
import IcLir.Proofs.CompileOutcome

/-
  The order of the classes. Two programs that have the same classes, in orders in which no class
  comes before its superclass, have the same lineages (`lineage_eq_of_perm`). All rules are about
  lineages and about which classes there are, so one program is accepted if the other is; then
  their entries are the same method, and each class has the same layout in both.
-/

namespace IcLir

namespace Program

/-- No class comes before its superclass. -/
def SuperclassesFirst (p : Program) : Prop :=
  p.classes.Pairwise fun c c' => c.superclass.map (·.name) ≠ some c'.name.name

instance (p : Program) : Decidable p.SuperclassesFirst :=
  inferInstanceAs (Decidable (List.Pairwise _ _))

/-- A superclass that is a class of the program, and another one, is declared before. -/
theorem SuperclassesFirst.mem_before {p : Program} (h : p.SuperclassesFirst)
    {before after : List ClassDecl} {c : ClassDecl} (hp : p.classes = before ++ c :: after)
    {base : Ident} (hbase : c.superclass = some base) (hmem : base.name ∈ p.classNames)
    (hne : base.name ≠ c.name.name) : base.name ∈ before.map (·.name.name) := by
  unfold SuperclassesFirst at h
  rw [hp, List.pairwise_append, List.pairwise_cons] at h
  rw [classNames, hp, List.map_append, List.map_cons, List.mem_append, List.mem_cons] at hmem
  rcases hmem with hmem | heq | hmem
  · exact hmem
  · exact absurd heq hne
  · obtain ⟨b, hb, hname⟩ := List.mem_map.mp hmem
    exact absurd (by rw [hbase, Option.map_some, hname]) (h.2.1.1 b hb)

section

variable {p q : Program} {entryMethod : String}

theorem perm_classNames (hperm : p.classes.Perm q.classes) : p.classNames.Perm q.classNames :=
  hperm.map _

theorem perm_methods (hperm : p.classes.Perm q.classes) : p.methods.Perm q.methods :=
  hperm.flatMap_right _

theorem DistinctNodes.of_perm (h : p.DistinctNodes) (hperm : p.classes.Perm q.classes) :
    q.DistinctNodes := by
  have hmethods := perm_methods hperm
  exact ⟨(hmethods.map _).nodup_iff.mp h.methods,
    ((hmethods.flatMap_right _).map _).nodup_iff.mp h.stmts,
    ((hmethods.flatMap_right _).map _).nodup_iff.mp h.exprs⟩

/-- Superclasses come first in every order that puts no class before its superclass. -/
theorem WellFormed.superclass_of_perm (h : p.WellFormed entryMethod)
    (hperm : p.classes.Perm q.classes) (hq : q.SuperclassesFirst) :
    ∀ before c after, q.classes = before ++ c :: after → ∀ base, c.superclass = some base →
      base.name ∈ before.map (·.name.name) := by
  intro before c after hsplit base hbase
  have hc : c ∈ p.classes := by
    rw [hperm.mem_iff, hsplit]
    exact List.mem_append_right _ List.mem_cons_self
  obtain ⟨before', after', hp⟩ := List.append_of_mem hc
  have hmem := h.superclass before' c after' hp base hbase
  have hnodup := h.classes_nodup
  rw [classNames, hp, List.map_append, List.map_cons, List.nodup_append] at hnodup
  refine hq.mem_before hsplit hbase ?_ (hnodup.2.2 _ hmem _ List.mem_cons_self)
  rw [← (perm_classNames hperm).mem_iff, classNames, hp, List.map_append]
  exact List.mem_append_left _ hmem

/-- The lineage of a class does not depend on the order. -/
theorem lineage_eq_of_perm (hperm : p.classes.Perm q.classes) (h : p.WellFormed entryMethod)
    (hq : q.SuperclassesFirst) : p.lineage = q.lineage := by
  have hsuper := h.superclass_of_perm hperm hq
  have hnodup := h.classes_nodup
  have hnodup' : q.classNames.Nodup := (perm_classNames hperm).nodup_iff.mp hnodup
  -- by the number of classes before the class in the first order
  have key : ∀ n before c after, before.length = n → p.classes = before ++ c :: after →
      p.lineage c.name.name = q.lineage c.name.name := by
    intro n
    induction n using Nat.strongRecOn with
    | ind n ih =>
      intro before c after hn hp
      have hc : c ∈ q.classes := by
        rw [← hperm.mem_iff, hp]
        exact List.mem_append_right _ List.mem_cons_self
      obtain ⟨before', after', hq'⟩ := List.append_of_mem hc
      rw [lineage_eq_cons hnodup hp, lineage_eq_cons hnodup' hq']
      congr 1
      cases hbase : c.superclass with
      | none => simp [ClassDecl.superclasses, ClassDecl.superclassesFrom, hbase]
      | some base =>
        have hmem := h.superclass before c after hp base hbase
        rw [superclasses_eq_lineage hnodup hp hbase hmem,
          superclasses_eq_lineage hnodup' hq' hbase (hsuper before' c after' hq' base hbase)]
        obtain ⟨b, hb, hname⟩ := List.mem_map.mp hmem
        obtain ⟨before₁, after₁, rfl⟩ := List.append_of_mem hb
        rw [← hname]
        refine ih before₁.length ?_ before₁ b (after₁ ++ c :: after) rfl (by rw [hp]; simp)
        rw [← hn, List.length_append, List.length_cons]
        omega
  funext name
  by_cases hname : name ∈ p.classNames
  · obtain ⟨c, hc, rfl⟩ := List.mem_map.mp hname
    obtain ⟨before, after, hp⟩ := List.append_of_mem hc
    exact key _ before c after rfl hp
  · rw [lineage_eq_nil hname,
      lineage_eq_nil fun hmem => hname ((perm_classNames hperm).mem_iff.mpr hmem)]

theorem isKnown_iff_of_perm (hperm : p.classes.Perm q.classes) (base : BaseType) :
    base.IsKnown p.classNames ↔ base.IsKnown q.classNames := by
  cases base with
  | named name => exact (perm_classNames hperm).mem_iff
  | _ => exact Iff.rfl

theorem wellScoped_of_perm (hperm : p.classes.Perm q.classes) {m : MethodDecl}
    (h : m.WellScoped p.classNames) : m.WellScoped q.classNames where
  result := (isKnown_iff_of_perm hperm _).mp h.result
  params x hx := (isKnown_iff_of_perm hperm _).mp (h.params x hx)
  names := h.names
  body s hs := by
    have hproper := h.body s hs
    cases s with
    | declare node type name init => exact (isKnown_iff_of_perm hperm type.base).mp hproper
    | _ => exact hproper

/-- The rules of declaration do not depend on the order. -/
theorem WellFormed.of_perm (h : p.WellFormed entryMethod) (hperm : p.classes.Perm q.classes)
    (hq : q.SuperclassesFirst) : q.WellFormed entryMethod where
  classes_nodup := (perm_classNames hperm).nodup_iff.mp h.classes_nodup
  not_builtIn c hc := h.not_builtIn c (hperm.mem_iff.mpr hc)
  superclass := h.superclass_of_perm hperm hq
  fieldTypes c hc f hf :=
    (isKnown_iff_of_perm hperm _).mp (h.fieldTypes c (hperm.mem_iff.mpr hc) f hf)
  members before c after hsplit := by
    have hc : c ∈ p.classes := by
      rw [hperm.mem_iff, hsplit]
      exact List.mem_append_right _ List.mem_cons_self
    obtain ⟨before', after', hp⟩ := List.append_of_mem hc
    have hlineage : c :: c.superclasses before' = c :: c.superclasses before := by
      rw [← lineage_eq_cons h.classes_nodup hp, lineage_eq_of_perm hperm h hq]
      exact lineage_eq_cons ((perm_classNames hperm).nodup_iff.mp h.classes_nodup) hsplit
    rw [← (List.cons.inj hlineage).2]
    exact h.members before' c after' hp
  methods m hm := wellScoped_of_perm hperm (h.methods m ((perm_methods hperm).mem_iff.mpr hm))
  entry := by
    rw [← ((perm_methods hperm).filter _).length_eq]
    exact h.entry

/-- In a well-formed program the rules of typing do not depend on the order either. -/
theorem WellTyped.of_perm (ht : p.WellTyped) (hperm : p.classes.Perm q.classes)
    (h : p.WellFormed entryMethod) (hq : q.SuperclassesFirst) : q.WellTyped := by
  intro c hc m hm hkind
  have hfits := ht c (hperm.mem_iff.mpr hc) m hm hkind
  unfold bodyFits outlook at hfits ⊢
  rw [← lineage_eq_of_perm hperm h hq]
  exact hfits

/-- There is one method of the shape of an entry, in one class. -/
theorem WellFormed.entry_unique (h : p.WellFormed entryMethod) {c c' : ClassDecl}
    {m m' : MethodDecl} (hc : c ∈ p.classes) (hc' : c' ∈ p.classes) (hm : m ∈ c.methods)
    (hm' : m' ∈ c'.methods) (hentry : m.isEntry entryMethod = true)
    (hentry' : m'.isEntry entryMethod = true) : c = c' ∧ m = m' := by
  have hone := h.entry
  constructor
  · obtain ⟨before, after, hp⟩ := List.append_of_mem hc
    rw [Program.methods, hp, List.flatMap_append, List.flatMap_cons, List.filter_append,
      List.filter_append, List.length_append, List.length_append] at hone
    have hpos : 0 < (c.methods.filter (·.isEntry entryMethod)).length :=
      List.length_pos_of_mem (List.mem_filter.mpr ⟨hm, hentry⟩)
    have hother : ∀ l : List ClassDecl, c' ∈ l →
        0 < ((l.flatMap (·.methods)).filter (·.isEntry entryMethod)).length := fun l hl =>
      List.length_pos_of_mem
        (List.mem_filter.mpr ⟨List.mem_flatMap.mpr ⟨c', hl, hm'⟩, hentry'⟩)
    rw [hp] at hc'
    rcases List.mem_append.mp hc' with hl | hl
    · have := hother before hl
      omega
    rcases List.mem_cons.mp hl with heq | hl
    · exact heq.symm
    · have := hother after hl
      omega
  · obtain ⟨x, hx⟩ := List.length_eq_one_iff.mp hone
    have hall : ∀ y ∈ p.methods, y.isEntry entryMethod = true → y = x := by
      intro y hy hyentry
      have hmem := List.mem_filter.mpr ⟨hy, hyentry⟩
      rw [hx] at hmem
      exact List.mem_singleton.mp hmem
    rw [hall m (List.mem_flatMap.mpr ⟨c, hc, hm⟩) hentry,
      hall m' (List.mem_flatMap.mpr ⟨c', hc', hm'⟩) hentry']

end

end Program

/-- The two layouts say the same of their class, which may have different numbers in them. -/
structure ClassLayout.SameByName (l l' : ClassLayout) : Prop where
  name : l.name = l'.name
  offset? : ∀ field, l.offset? field = l'.offset? field
  method? : ∀ method, l.method? method = l'.method? method
  dispatchTable : l.dispatchTable = l'.dispatchTable
  objectSize : l.objectSize = l'.objectSize

section

open Pass TypeTable

variable {p q : Program} {options : Options}

theorem reflects_of_analyzed (hp : p.DistinctNodes) {c : Context}
    (h : analyzed options p = .ok c) :
    p.WellFormed options.entryMethod ∧ p.WellTyped ∧ c.Reflects p options.entryMethod := by
  unfold analyzed at h
  cases hc : Context.analyze p (.initial options) with
  | error e c' => rw [hc] at h; simp at h
  | ok _ c' =>
    rw [hc] at h
    obtain rfl := Except.ok.inj h
    obtain ⟨⟨hwell, htyped⟩, hreflects⟩ := (Context.decides_analyze hp options).of_ok hc
    exact ⟨hwell, htyped, hreflects⟩

theorem exists_analyzed_iff (hp : p.DistinctNodes) :
    (∃ c, analyzed options p = .ok c) ↔ p.WellFormed options.entryMethod ∧ p.WellTyped := by
  rw [← (Context.decides_analyze hp options).exists_ok_iff]
  unfold analyzed
  cases Context.analyze p (.initial options) with
  | error e c => simp
  | ok u c => simp

theorem exists_analyze_iff (hp : p.DistinctNodes) :
    (∃ a, analyze options p = .ok a) ↔ ∃ c, analyzed options p = .ok c := by
  unfold analyze
  cases h : analyzed options p with
  | error e => simp [bind, Except.bind]
  | ok c =>
    obtain ⟨text, htext⟩ := (accepts_of_analyzed hp h).exists_entryText
    simp [bind, Except.bind, htext]

/-- Of two orders that put no class before its superclass, both are accepted or none. -/
theorem exists_analyze_of_perm (hp : p.DistinctNodes) (hperm : p.classes.Perm q.classes)
    (hq : q.SuperclassesFirst) (h : ∃ a, analyze options p = .ok a) :
    ∃ a, analyze options q = .ok a := by
  rw [exists_analyze_iff hp, exists_analyzed_iff hp] at h
  rw [exists_analyze_iff (hp.of_perm hperm), exists_analyzed_iff (hp.of_perm hperm)]
  exact ⟨h.1.of_perm hperm hq, h.2.of_perm hperm h.1 hq⟩

/-- The one method of the shape of an entry is found in every order. -/
theorem exists_entries_of_perm {c c' : Context} {entryMethod : String}
    (h : p.WellFormed entryMethod) (hc : c.Reflects p entryMethod)
    (hc' : c'.Reflects q entryMethod) (hperm : p.classes.Perm q.classes) :
    ∃ e e', c.entry = some e ∧ c'.entry = some e' ∧ e.method = e'.method ∧
      c.types.name e.owner = c'.types.name e'.owner := by
  obtain ⟨e, k, hk, he, howner, hm, hentry⟩ := hc.exists_entry
  obtain ⟨e', k', hk', he', howner', hm', hentry'⟩ := hc'.exists_entry
  obtain ⟨rfl, hmethod⟩ := h.entry_unique hk (hperm.mem_iff.mpr hk') hm hm' hentry hentry'
  exact ⟨e, e', he, he', hmethod, howner.trans howner'.symm⟩

/-- A layout that the text gives says the same in every order. -/
theorem exists_layouts_of_perm {c c' : Context} {entryMethod : String}
    (hc : c.Reflects p entryMethod) (hc' : c'.Reflects q entryMethod)
    (hlineage : p.lineage = q.lineage) {k : ClassDecl} (hk : k ∈ p.classes)
    (hk' : k ∈ q.classes) :
    ∃ type type' l l', c.types.class? k.name.name = some type ∧
      c'.types.class? k.name.name = some type' ∧ c.layouts.get? type = some l ∧
      c'.layouts.get? type' = some l' ∧ l.SameByName l' := by
  obtain ⟨i, hi⟩ := List.getElem?_of_mem hk
  obtain ⟨j, hj⟩ := List.getElem?_of_mem hk'
  have hl := hc.layouts i k (List.getElem?_eq_some_iff.mp hi).1 hi
  have hl' := hc'.layouts j k (List.getElem?_eq_some_iff.mp hj).1 hj
  rw [hlineage] at hl
  exact ⟨_, _, _, _, hc.table.class? i k hi, hc'.table.class? j k hj, hl, hl',
    ⟨rfl, fun _ => rfl, fun _ => rfl, rfl, rfl⟩⟩

end

/-- The order in which classes are declared does not matter, as long as none comes before its
    superclass: the programs are both accepted or both rejected, and if they are accepted they
    have the same entry and each class has the same layout in both. -/
theorem class_order_does_not_matter {p q : Program} (hnodes : p.DistinctNodes)
    (hperm : p.classes.Perm q.classes) (hp : p.SuperclassesFirst) (hq : q.SuperclassesFirst)
    (options : Options) :
    ((∃ a, analyze options p = .ok a) ↔ ∃ a, analyze options q = .ok a) ∧
      ∀ a a', analyze options p = .ok a → analyze options q = .ok a' →
        a.entry = a'.entry ∧
        ∃ c c' e e', analyzed options p = .ok c ∧ analyzed options q = .ok c' ∧
          c.entry = some e ∧ c'.entry = some e' ∧ e.method = e'.method ∧
          c.types.name e.owner = c'.types.name e'.owner ∧
          ∀ k ∈ p.classes, ∃ type type' l l', c.types.class? k.name.name = some type ∧
            c'.types.class? k.name.name = some type' ∧ c.layouts.get? type = some l ∧
            c'.layouts.get? type' = some l' ∧ l.SameByName l' := by
  refine ⟨⟨exists_analyze_of_perm hnodes hperm hq,
    exists_analyze_of_perm (hnodes.of_perm hperm) hperm.symm hp⟩, ?_⟩
  intro a a' ha ha'
  obtain ⟨c, hc, htext, _⟩ := exists_context_of_analyze ha
  obtain ⟨c', hc', htext', _⟩ := exists_context_of_analyze ha'
  obtain ⟨hwell, _, hreflects⟩ := reflects_of_analyzed hnodes hc
  obtain ⟨_, _, hreflects'⟩ := reflects_of_analyzed (hnodes.of_perm hperm) hc'
  obtain ⟨e, e', he, he', hmethod, howner⟩ :=
    exists_entries_of_perm hwell hreflects hreflects' hperm
  have hlineage := Program.lineage_eq_of_perm hperm hwell hq
  refine ⟨?_, c, c', e, e', hc, hc', he, he', hmethod, howner, fun k hk =>
    exists_layouts_of_perm hreflects hreflects' hlineage hk (hperm.mem_iff.mp hk)⟩
  have hsame : c.entryText? = c'.entryText? := by
    rw [Context.entryText?, Context.entryText?, he, he', Option.map_some, Option.map_some, hmethod,
      howner]
  exact Option.some.inj (htext.symm.trans (hsame.trans htext'))

namespace Shapes

/-- `class Pile extends Shape { Square top; int area(int scale) { return top.area(scale); } }` -/
def pile : ClassDecl where
  name := name "Pile"
  superclass := some (name "Shape")
  fields := [⟨type (.named "Square"), name "top"⟩]
  methods := [
    { id := 4, kind := .virtual, returnType := type .int, name := name "area"
      params := [⟨type .int, name "scale"⟩]
      body := [.ret (node 13) (some (.methodCall (node 30) (.var (node 31) (name "top"))
        (name "area") [.var (node 32) (name "scale")]))] }]

/-- In this order a class is used before it is declared. -/
def piled : Program := ⟨[shape, pile, square]⟩

def piledLast : Program := ⟨[shape, square, pile]⟩

theorem distinctNodes_piled : piled.DistinctNodes := ⟨by decide, by decide, by decide⟩

theorem analyze_piled : (analyze {} piled).toOption.isSome = true := by decide +kernel

end Shapes

/-- Both orders of the sample are accepted, with the entry and the layouts in common. -/
theorem class_order_does_not_matter_piled :
    (Shapes.piled.DistinctNodes ∧ Shapes.piled.classes.Perm Shapes.piledLast.classes ∧
      Shapes.piled.SuperclassesFirst ∧ Shapes.piledLast.SuperclassesFirst) ∧
    ∃ a a', analyze {} Shapes.piled = .ok a ∧ analyze {} Shapes.piledLast = .ok a' ∧
      a.entry = a'.entry ∧
      ∃ c c' e e', analyzed {} Shapes.piled = .ok c ∧ analyzed {} Shapes.piledLast = .ok c' ∧
        c.entry = some e ∧ c'.entry = some e' ∧ e.method = e'.method ∧
        c.types.name e.owner = c'.types.name e'.owner ∧
        ∀ k ∈ Shapes.piled.classes, ∃ type type' l l',
          c.types.class? k.name.name = some type ∧ c'.types.class? k.name.name = some type' ∧
          c.layouts.get? type = some l ∧ c'.layouts.get? type' = some l' ∧ l.SameByName l' := by
  have hperm : Shapes.piled.classes.Perm Shapes.piledLast.classes := .cons _ (.swap ..)
  have hp : Shapes.piled.SuperclassesFirst := by decide
  have hq : Shapes.piledLast.SuperclassesFirst := by decide
  obtain ⟨hiff, hsame⟩ := class_order_does_not_matter Shapes.distinctNodes_piled hperm hp hq {}
  have hok : ∃ a, analyze {} Shapes.piled = .ok a := by
    have := Shapes.analyze_piled
    cases h : analyze {} Shapes.piled with
    | ok a => exact ⟨a, rfl⟩
    | error e => rw [h] at this; simp [Except.toOption] at this
  obtain ⟨a, ha⟩ := hok
  obtain ⟨a', ha'⟩ := hiff.mp ⟨a, ha⟩
  exact ⟨⟨Shapes.distinctNodes_piled, hperm, hp, hq⟩, a, a', ha, ha', hsame a a' ha ha'⟩

end IcLir
