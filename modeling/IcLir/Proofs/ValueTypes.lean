import IcLir.Proofs.DefinitionRules
import IcLir.Proofs.TypingRules
import IcLir.Typing.Rule

/-
  The numbers of types and what is written for them. `Means t id type`: in the table `t`, the
  type has the number `id`. What the typing stage asks about numbers has its answer in the text:
  whether two types are the same (`Means.eq_iff`), what a class is called (`Means.class_cases`),
  what an array holds (`Means.element_cases`) and which type is below another
  (`Means.isSubtype_eq`).
-/

namespace IcLir

theorem eq_append_cons_of_getElem? {α : Type} {l : List α} {i : Nat} {a : α} (h : l[i]? = some a) :
    l = l.take i ++ a :: l.drop (i + 1) := by
  obtain ⟨hlt, rfl⟩ := List.getElem?_eq_some_iff.mp h
  calc l = l.take i ++ l.drop i := (List.take_append_drop i l).symm
    _ = l.take i ++ l[i] :: l.drop (i + 1) := by rw [List.drop_eq_getElem_cons hlt]

namespace TypeTable

/-- The number of the type is `id`. -/
def Means (t : TypeTable) (id : TypeId) : ValueType → Prop
  | .null => id = TypeId.null
  | .written base dims => t.denoted? ⟨base, dims, default⟩ = some id

theorem means_valueType {t : TypeTable} {id : TypeId} {e : TypeExpr} :
    t.Means id e.valueType ↔ t.denoted? e = some id := Iff.rfl

section

variable (t : TypeTable)

theorem means_int : t.Means TypeId.int .int := rfl

theorem means_boolean : t.Means TypeId.boolean .boolean := rfl

theorem means_string : t.Means TypeId.string .string := rfl

theorem means_void : t.Means TypeId.void .void := rfl

theorem means_literal (value : Literal) :
    t.Means (Typing.literalType value) (.ofLiteral value) := by
  cases value <;> rfl

end

theorem means_of_class? {t : TypeTable} {name : String} {id : TypeId}
    (h : t.class? name = some id) : t.Means id (.written (.named name) 0) := by
  rw [Means, denoted?, base?, h]
  rfl

variable {classes : List ClassDecl} {t t' : TypeTable} {id id' : TypeId} {a b : ValueType}

namespace Means

theorem extend (h : t.Means id a) (he : t.Extends t') : t'.Means id a := by
  cases a with
  | null => exact h
  | written base dims => exact he.denoted?_of_some h

theorem ne_null (ht : ClassTable classes t) {base : BaseType} {dims : Nat}
    (h : t.Means id (.written base dims)) : id ≠ TypeId.null := ht.denoted?_ne_null h

/-- Numbers are as different as what they stand for. -/
theorem eq_iff (ht : ClassTable classes t) (ha : t.Means id a) (hb : t.Means id' b) :
    id = id' ↔ a = b := by
  cases a with
  | null =>
    obtain rfl := ha
    cases b with
    | null => exact iff_of_true hb.symm rfl
    | written base dims => exact iff_of_false (Ne.symm (hb.ne_null ht)) (by simp)
  | written base dims =>
    cases b with
    | null =>
      obtain rfl := hb
      exact iff_of_false (ha.ne_null ht) (by simp)
    | written base' dims' =>
      rw [ht.denoted?_eq_iff ha hb, TypeExpr.shape, TypeExpr.shape, Prod.mk.injEq,
        ValueType.written.injEq]

/-- Either both are a class, and of one name, or neither is. -/
theorem class_cases (ht : ClassTable classes t) (h : t.Means id a) :
    (∃ name, a.className? = some name ∧ a = .written (.named name) 0 ∧
        t.class? name = some id ∧ t.isClass id = true) ∨
      a.className? = none ∧ t.isClass id = false := by
  cases a with
  | null =>
    obtain rfl := h
    exact .inr ⟨rfl, ht.isClass_primitive .null⟩
  | written base dims =>
    obtain ⟨baseId, hbase, hid⟩ := Option.bind_eq_some_iff.mp h
    cases dims with
    | succ dims =>
      obtain ⟨element, _, hidx⟩ := nested?_succ hid
      refine .inr ⟨by cases base <;> rfl, ?_⟩
      exact ClassTable.not_isClass_of_element? (element?_of_idxOf? hidx)
    | zero =>
      obtain rfl : baseId = id := Option.some.inj hid
      rcases ht.base?_cases hbase with ⟨i, c, hi, rfl, rfl⟩ | ⟨q, _, rfl, hq⟩
      · exact .inl ⟨c.name.name, rfl, rfl, ht.class? i c hi, ht.isClass_classId hi⟩
      · refine .inr ⟨?_, ht.isClass_primitive q⟩
        cases base with
        | named name => exact absurd rfl (hq name)
        | _ => rfl

/-- Either both are an array type, with elements of one type, or neither is. -/
theorem element_cases (ht : ClassTable classes t) (h : t.Means id a) :
    (∃ element type, a.element? = some type ∧ t.element? id = some element ∧
        t.Means element type) ∨
      a.element? = none ∧ t.element? id = none := by
  cases a with
  | null =>
    obtain rfl := h
    exact .inr ⟨rfl, ht.element?_primitive .null⟩
  | written base dims =>
    cases dims with
    | succ dims =>
      obtain ⟨element, helement, hid⟩ :=
        exists_element_of_denoted?_arrayOf (e := ⟨base, dims, default⟩) h
      exact .inl ⟨element, .written base dims, rfl, hid, helement⟩
    | zero =>
      obtain ⟨baseId, hbase, hid⟩ := Option.bind_eq_some_iff.mp h
      obtain rfl : baseId = id := Option.some.inj hid
      exact .inr ⟨rfl, ht.element?_base? hbase⟩

theorem isArray_eq (ht : ClassTable classes t) (h : t.Means id a) :
    t.isArray id = a.element?.isSome := by
  have hisArray : t.isArray id = (t.element? id).isSome := by
    unfold isArray element?
    rcases t.kind? id with _ | _ | _ | _ | _ <;> rfl
  rw [hisArray]
  rcases h.element_cases ht with ⟨element, type, ha, hid, _⟩ | ⟨ha, hid⟩ <;> rw [ha, hid] <;> rfl

end Means

/-! ## Superclasses -/

/-- The superclasses in the table are those that the text gives. -/
theorem ClassTable.ancestors_eq (ht : ClassTable classes t) {i : Nat} {c : ClassDecl}
    (hi : classes[i]? = some c) :
    (t.ancestors (classId i)).map some =
      (c.superclasses (classes.take i)).map fun b => t.class? b.name.name := by
  induction i using Nat.strongRecOn generalizing c with
  | ind i ih =>
    unfold ClassDecl.superclasses
    rcases ht.superclass i c hi with ⟨hnone, hempty⟩ | ⟨base, j, b, hbase, hj, hb, hname, hcons⟩
    · rw [hnone, hempty]
      simp [ClassDecl.superclassesFrom]
    · have hle : i ≤ classes.length := Nat.le_of_lt (List.getElem?_eq_some_iff.mp hi).1
      rw [hbase, hcons, Option.map_some, ← hname, Definition.superclassesFrom_take ht hb hj hle,
        List.map_cons, List.map_cons, ih j hj hb, ht.class? j b hb]

variable {p : Program}

theorem ClassTable.nodup_classNames (ht : ClassTable p.classes t) : p.classNames.Nodup := by
  rw [Program.classNames, List.nodup_iff_pairwise_ne, List.pairwise_map, List.pairwise_iff_getElem]
  intro i j hi hj hlt hname
  exact Nat.ne_of_lt hlt
    (ht.index_unique (List.getElem?_eq_getElem hi) (List.getElem?_eq_getElem hj) hname)

/-- What follows a class in its lineage are its superclasses. -/
theorem ClassTable.lineage_eq (ht : ClassTable p.classes t) {i : Nat} {c : ClassDecl}
    (hi : p.classes[i]? = some c) :
    p.lineage c.name.name = c :: c.superclasses (p.classes.take i) :=
  Program.lineage_eq_cons ht.nodup_classNames (eq_append_cons_of_getElem? hi)

theorem ClassTable.class?_eq_none_iff (ht : ClassTable p.classes t) {name : String} :
    t.class? name = none ↔ p.lineage name = [] := by
  constructor
  · intro hnone
    refine Program.lineage_eq_nil fun hmem => ?_
    obtain ⟨c, hc, rfl⟩ := List.mem_map.mp hmem
    obtain ⟨i, hi⟩ := List.getElem?_of_mem hc
    rw [ht.class? i c hi] at hnone
    simp at hnone
  · intro hnil
    rw [Option.eq_none_iff_forall_ne_some]
    intro id hid
    obtain ⟨i, c, hi, _, rfl⟩ := ht.of_class? hid
    rw [ht.lineage_eq hi] at hnil
    simp at hnil

/-- A base is known exactly if it has a number. -/
theorem ClassTable.knows_eq (ht : ClassTable p.classes t) {o : Outlook}
    (ho : o.lineage = p.lineage) (base : BaseType) : o.knows base = (t.base? base).isSome := by
  cases base with
  | named name =>
    rw [Outlook.knows, ho, base?]
    cases hc : t.class? name with
    | none => rw [ht.class?_eq_none_iff.mp hc]; rfl
    | some id =>
      have hne : p.lineage name ≠ [] := fun hnil => by
        rw [ht.class?_eq_none_iff.mpr hnil] at hc
        simp at hc
      simpa using hne
  | _ => rfl

/-- A class is among the superclasses of another exactly if its name is. -/
theorem ClassTable.mem_ancestors_iff (ht : ClassTable p.classes t) {i : Nat} {c : ClassDecl}
    (hi : p.classes[i]? = some c) {base : String} (hbase : t.class? base = some id) :
    id ∈ t.ancestors (classId i) ↔
      ∃ b ∈ c.superclasses (p.classes.take i), b.name.name = base := by
  have hname : ∀ b : ClassDecl, t.class? b.name.name = some id ↔ b.name.name = base := by
    intro b
    constructor
    · intro hb
      obtain ⟨_, hk⟩ := kind?_of_class? hb
      obtain ⟨_, hk'⟩ := kind?_of_class? hbase
      exact (TypeKind.classType.inj (Option.some.inj (hk.symm.trans hk'))).1
    · intro hb
      rw [hb, hbase]
  calc id ∈ t.ancestors (classId i)
      ↔ some id ∈ (t.ancestors (classId i)).map some := by simp
    _ ↔ ∃ b ∈ c.superclasses (p.classes.take i), t.class? b.name.name = some id := by
      rw [ht.ancestors_eq hi, List.mem_map]
    _ ↔ ∃ b ∈ c.superclasses (p.classes.take i), b.name.name = base := by
      simp only [hname]

/-- Which type is below another can be read off the text. -/
theorem Means.isSubtype_eq (ht : ClassTable p.classes t) {o : Outlook}
    (ho : o.lineage = p.lineage) (ha : t.Means id a) (hb : t.Means id' b) :
    t.isSubtype id id' = o.isSubtype a b := by
  unfold isSubtype Outlook.isSubtype
  by_cases heq : a = b
  · rw [if_pos heq, if_pos ((ha.eq_iff ht hb).mpr heq)]
  rw [if_neg heq, if_neg fun hid => heq ((ha.eq_iff ht hb).mp hid)]
  cases a with
  | null =>
    obtain rfl := ha
    simp only [if_true, hb.eq_iff ht t.means_int, hb.eq_iff ht t.means_boolean,
      hb.eq_iff ht t.means_void]
  | written base dims =>
    rw [if_neg (ha.ne_null ht)]
    rcases ha.class_cases ht with ⟨name, hname, heqa, hclass, _⟩ | ⟨hname, hnot⟩
    · obtain ⟨i, c, hi, rfl, rfl⟩ := ht.of_class? hclass
      rcases hb.class_cases ht with ⟨sup, hsup, rfl, hclass', _⟩ | ⟨hsup, hnot'⟩
      · have hne : c.name.name ≠ sup := fun h => heq (by rw [heqa, h])
        have hself : decide (c.name.name = sup) = false := by simpa using hne
        rw [hname, hsup]
        dsimp only
        rw [ho, ht.lineage_eq hi, List.any_cons, hself, Bool.false_or, Bool.eq_iff_iff,
          List.contains_iff_mem, ht.mem_ancestors_iff hi hclass', List.any_eq_true]
        simp
      · rw [hname, hsup]
        have hnotin : id' ∉ t.ancestors (classId i) := fun hmem => by
          obtain ⟨j, b', _, hj, rfl⟩ := ht.mem_ancestors hi hmem
          rw [ht.isClass_classId hj] at hnot'
          simp at hnot'
        simpa using hnotin
    · have hempty : t.ancestors id = [] := by
        rw [List.eq_nil_iff_forall_not_mem]
        intro base' hmem
        rw [ClassTable.isClass_of_mem_ancestors hmem] at hnot
        simp at hnot
      rw [hname, hempty]
      rfl

end TypeTable

end IcLir
