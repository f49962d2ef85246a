import IcLir.Tree.Program
import IcLir.Proofs.TypeExtension

/-
  What entering the classes of a program leaves in the type table. The classes follow the
  primitives in the order of declaration, so class number `i` has the type `classId i`; its
  superclass, if it has one, is a class declared before it. `ClassTable.addClass` says that
  entering a class keeps this up, and `ClassTable.extend` that it stays true while arrays and
  signatures are added.
-/

namespace IcLir

namespace TypeTable

variable {t t' : TypeTable} {id : TypeId} {name : String}

/-- The type of class number `i`. -/
def classId (i : Nat) : TypeId := Primitive.all.length + i

theorem classId_inj {i j : Nat} (h : classId i = classId j) : i = j :=
  Nat.add_left_cancel h

theorem classId_ne_null (i : Nat) : classId i ≠ TypeId.null := by
  intro h
  have : 5 + i = 2 := h
  omega

/-- What is found under a name is the class of that name. -/
theorem kind?_of_class? (h : t.class? name = some id) :
    ∃ ancestors, t.kind? id = some (.classType name ancestors) := by
  obtain ⟨hlt, hnamed, _⟩ := List.findIdx?_eq_some_iff_getElem.mp h
  have hk : t.kind? id = some t.kinds[id] := List.getElem?_eq_getElem hlt
  rw [hk]
  revert hnamed
  cases t.kinds[id] <;> simp [TypeKind.isClassNamed]

theorem isClass_of_class? (h : t.class? name = some id) : t.isClass id = true := by
  obtain ⟨ancestors, hk⟩ := kind?_of_class? h
  rw [isClass, hk]
  rfl

/-- How the superclasses of class number `i` are entered. -/
def SuperclassEntered (classes : List ClassDecl) (t : TypeTable) (i : Nat) (c : ClassDecl) : Prop :=
  c.superclass = none ∧ t.ancestors (classId i) = [] ∨
    ∃ base j c', c.superclass = some base ∧ j < i ∧ classes[j]? = some c' ∧
      c'.name.name = base.name ∧
      t.ancestors (classId i) = classId j :: t.ancestors (classId j)

structure ClassTable (classes : List ClassDecl) (t : TypeTable) : Prop where
  primitive : ∀ q : Primitive, t.kind? q.id = some (.primitive q)
  class? : ∀ i c, classes[i]? = some c → t.class? c.name.name = some (classId i)
  kind? : ∀ i c, classes[i]? = some c →
    ∃ ancestors, t.kind? (classId i) = some (.classType c.name.name ancestors)
  isClass : ∀ id, t.isClass id = true → ∃ i c, classes[i]? = some c ∧ id = classId i
  superclass : ∀ i c, classes[i]? = some c → SuperclassEntered classes t i c
  classes_eq : t.classes = classes.zipIdx.map fun c => (classId c.2, c.1.name.name)

namespace ClassTable

variable {classes : List ClassDecl} {t t' : TypeTable}

variable {type id : TypeId} {i : Nat} {c : ClassDecl}

theorem extend (h : ClassTable classes t) (he : t.Extends t') : ClassTable classes t' where
  primitive q := he.kind?_of_some (h.primitive q)
  class? i c hi := by rw [he.class?_eq]; exact h.class? i c hi
  kind? i c hi := by
    obtain ⟨ancestors, hk⟩ := h.kind? i c hi
    exact ⟨ancestors, he.kind?_of_some hk⟩
  isClass id hid := by rw [he.isClass_eq] at hid; exact h.isClass id hid
  superclass i c hi := by
    rcases h.superclass i c hi with ⟨hn, ha⟩ | ⟨base, j, c', hb, hj, hc', hname, ha⟩
    · exact .inl ⟨hn, by rw [he.ancestors_eq]; exact ha⟩
    · exact .inr ⟨base, j, c', hb, hj, hc', hname, by
        rw [he.ancestors_eq, he.ancestors_eq]; exact ha⟩
  classes_eq := by rw [he.classes_eq]; exact h.classes_eq

theorem isClass_classId (h : ClassTable classes t) (hi : classes[i]? = some c) :
    t.isClass (classId i) = true := by
  obtain ⟨ancestors, hk⟩ := h.kind? i c hi
  simp [TypeTable.isClass, hk, TypeKind.isClass]

/-- A superclass is a class that was declared before. -/
theorem superclass?_cases (h : ClassTable classes t) (hi : classes[i]? = some c) :
    t.superclass? (classId i) = none ∨
      ∃ j b, j < i ∧ classes[j]? = some b ∧ t.superclass? (classId i) = some (classId j) := by
  unfold superclass?
  rcases h.superclass i c hi with ⟨_, ha⟩ | ⟨_, j, b, _, hj, hb, _, ha⟩
  · exact .inl (by rw [ha]; rfl)
  · exact .inr ⟨j, b, hj, hb, by rw [ha]; rfl⟩

/-- All superclasses are classes that were declared before. -/
theorem mem_ancestors (h : ClassTable classes t) (hi : classes[i]? = some c)
    (hid : id ∈ t.ancestors (classId i)) :
    ∃ j b, j < i ∧ classes[j]? = some b ∧ id = classId j := by
  induction i using Nat.strongRecOn generalizing c with
  | ind i ih =>
    rcases h.superclass i c hi with ⟨_, ha⟩ | ⟨_, j, b, _, hj, hb, _, ha⟩
    · rw [ha] at hid
      simp at hid
    · rw [ha] at hid
      rcases List.mem_cons.mp hid with rfl | hid
      · exact ⟨j, b, hj, hb, rfl⟩
      · obtain ⟨k, b', hk, hb', rfl⟩ := ih j hj hb hid
        exact ⟨k, b', Nat.lt_trans hk hj, hb', rfl⟩

/-- The superclasses of a superclass are superclasses. -/
theorem ancestors_subset (h : ClassTable classes t) (hi : classes[i]? = some c)
    (hid : id ∈ t.ancestors (classId i)) : t.ancestors id ⊆ t.ancestors (classId i) := by
  induction i using Nat.strongRecOn generalizing c with
  | ind i ih =>
    rcases h.superclass i c hi with ⟨_, ha⟩ | ⟨_, j, b, _, hj, hb, _, ha⟩
    · rw [ha] at hid
      simp at hid
    · rw [ha] at hid ⊢
      rcases List.mem_cons.mp hid with rfl | hid
      · exact List.subset_cons_self ..
      · exact fun x hx => List.mem_cons_of_mem _ (ih j hj hb hid hx)

/-- Only a class has superclasses. -/
theorem isClass_of_mem_ancestors {base : TypeId} (h : base ∈ t.ancestors id) :
    t.isClass id = true := by
  unfold ancestors at h
  unfold TypeTable.isClass
  cases hk : t.kind? id with
  | none => rw [hk] at h; simp at h
  | some k => rw [hk] at h; cases k <;> simp_all [TypeKind.isClass]

theorem isClass_primitive (h : ClassTable classes t) (q : Primitive) :
    t.isClass q.id = false := by
  rw [TypeTable.isClass, h.primitive]
  rfl

theorem element?_primitive (h : ClassTable classes t) (q : Primitive) : t.element? q.id = none := by
  rw [element?, h.primitive]

theorem ne_primitive_of_isClass (h : ClassTable classes t) (hc : t.isClass type = true)
    (q : Primitive) : type ≠ q.id := by
  rintro rfl
  rw [h.isClass_primitive] at hc
  simp at hc

theorem ne_primitive_of_element? (h : ClassTable classes t) {element : TypeId}
    (he : t.element? type = some element) (q : Primitive) : type ≠ q.id := by
  rintro rfl
  rw [h.element?_primitive] at he
  simp at he

/-- No type is both a class and an array type. -/
theorem not_isClass_of_element? {element : TypeId} (h : t.element? type = some element) :
    t.isClass type = false := by
  unfold element? at h
  unfold TypeTable.isClass
  cases hk : t.kind? type with
  | none => rfl
  | some kind =>
    rw [hk] at h
    cases kind with
    | array => rfl
    | primitive | classType | method => simp at h

theorem isSubtype_self (type : TypeId) : t.isSubtype type type = true := by
  rw [isSubtype, if_pos rfl]

/-- What stands for a class is a class below it. -/
theorem isClass_of_isSubtype (h : ClassTable classes t) {type' : TypeId}
    (hc : t.isClass type = true) (hs : t.isSubtype type type' = true) : t.isClass type' = true := by
  obtain ⟨i, c, hi, rfl⟩ := h.isClass type hc
  unfold isSubtype at hs
  split at hs
  · next heq => exact heq ▸ hc
  · rw [if_neg (classId_ne_null i)] at hs
    obtain ⟨j, b, _, hj, rfl⟩ := h.mem_ancestors hi (by simpa using hs)
    exact h.isClass_classId hj

/-- Only a class and null can stand for other types. -/
theorem eq_of_isSubtype_of_not_isClass {type' : TypeId} (hnull : type ≠ TypeId.null)
    (hc : t.isClass type = false) (hs : t.isSubtype type type' = true) : type' = type := by
  by_cases heq : type = type'
  · exact heq.symm
  · rw [isSubtype, if_neg heq, if_neg hnull] at hs
    have hclass := isClass_of_mem_ancestors (t := t) (by simpa using hs)
    rw [hc] at hclass
    simp at hclass

/-- A primitive that null cannot stand for is related to itself only. -/
theorem eq_of_isSubtype_primitive (h : ClassTable classes t) {q : Primitive}
    (hq : t.isSubtype TypeId.null q.id = false)
    (hs : t.isSubtype type q.id = true ∨ t.isSubtype q.id type = true) : type = q.id := by
  rcases hs with hs | hs
  · by_cases hnull : type = TypeId.null
    · rw [hnull, hq] at hs
      simp at hs
    · unfold isSubtype at hs
      rw [if_neg hnull] at hs
      split at hs
      · assumption
      · have hmem : q.id ∈ t.ancestors type := by simpa using hs
        obtain ⟨i, c, hi, rfl⟩ := h.isClass type (isClass_of_mem_ancestors hmem)
        obtain ⟨j, b, _, hj, hid⟩ := h.mem_ancestors hi hmem
        exact absurd hid.symm (h.ne_primitive_of_isClass (h.isClass_classId hj) q)
  · unfold isSubtype at hs
    split at hs
    · next heq => exact heq.symm
    · split at hs
      · next hnull =>
        rw [hnull, isSubtype_self] at hq
        simp at hq
      · have hmem : type ∈ t.ancestors q.id := by simpa using hs
        exact absurd rfl (h.ne_primitive_of_isClass (isClass_of_mem_ancestors hmem) q)

theorem isSubtype_trans (h : ClassTable classes t) {a b d : TypeId}
    (hab : t.isSubtype a b = true) (hbd : t.isSubtype b d = true) : t.isSubtype a d = true := by
  by_cases heq : a = b
  · exact heq ▸ hbd
  by_cases hnull : a = TypeId.null
  · subst hnull
    cases had : t.isSubtype TypeId.null d with
    | true => rfl
    | false =>
      -- null cannot stand for `d`, so only `d` itself is below `d`
      have hd : ∃ q : Primitive, d = q.id := by
        unfold isSubtype at had
        split at had
        · simp at had
        · rw [if_pos rfl] at had
          simp only [Bool.not_eq_false', Bool.or_eq_true, decide_eq_true_eq] at had
          rcases had with (rfl | rfl) | rfl
          · exact ⟨.int, rfl⟩
          · exact ⟨.boolean, rfl⟩
          · exact ⟨.void, rfl⟩
      obtain ⟨q, rfl⟩ := hd
      rw [h.eq_of_isSubtype_primitive had (.inl hbd), had] at hab
      exact hab
  · have hmem : b ∈ t.ancestors a := by
      rw [isSubtype, if_neg heq, if_neg hnull] at hab
      simpa using hab
    obtain ⟨i, c, hi, rfl⟩ := h.isClass a (isClass_of_mem_ancestors hmem)
    obtain ⟨j, c', _, hj, rfl⟩ := h.mem_ancestors hi hmem
    rw [isSubtype, if_neg hnull]
    split
    · rfl
    · rw [isSubtype, if_neg (classId_ne_null j)] at hbd
      have hd : d ∈ t.ancestors (classId i) := by
        split at hbd
        · next heq => exact heq ▸ hmem
        · exact h.ancestors_subset hi hmem (by simpa using hbd)
      simpa using hd

/-- Nothing but `boolean` can stand for `boolean`. -/
theorem eq_boolean_of_isSubtype (h : ClassTable classes t)
    (hs : t.isSubtype type TypeId.boolean = true) : type = TypeId.boolean :=
  h.eq_of_isSubtype_primitive (q := .boolean) (by rfl) (.inl hs)

/-- What holds of a class, and passes from each class to its direct subclasses, holds of all its
    subclasses. -/
theorem subclass_induction (h : ClassTable classes t) {motive : Nat → Prop} (hbase : motive i)
    (hstep : ∀ j k c, classes[j]? = some c → t.superclass? (classId j) = some (classId k) →
      motive k → motive j) {j : Nat} (hj : classes[j]? = some c)
    (hsub : t.isSubtype (classId j) (classId i) = true) : motive j := by
  induction j using Nat.strongRecOn generalizing c with
  | ind j ih =>
    unfold isSubtype at hsub
    split at hsub
    · next heq => exact classId_inj heq ▸ hbase
    · rw [if_neg (classId_ne_null j)] at hsub
      have hmem : classId i ∈ t.ancestors (classId j) := by simpa using hsub
      rcases h.superclass j c hj with ⟨_, ha⟩ | ⟨_, k, b, _, hk, hb, _, ha⟩
      · rw [ha] at hmem
        simp at hmem
      · rw [ha] at hmem
        refine hstep j k c hj (by rw [superclass?, ha]; rfl) (ih k hk hb ?_)
        unfold isSubtype
        rcases List.mem_cons.mp hmem with heq | hmem
        · rw [if_pos heq.symm]
        · split
          · rfl
          · rw [if_neg (classId_ne_null k)]
            simpa using hmem

/-- Two classes of one name are one class. -/
theorem index_unique (h : ClassTable classes t) {j : Nat} {c' : ClassDecl}
    (hi : classes[i]? = some c) (hj : classes[j]? = some c') (hname : c.name.name = c'.name.name) :
    i = j := by
  have hci := h.class? i c hi
  rw [hname, h.class? j c' hj] at hci
  exact (classId_inj (Option.some.inj hci)).symm

theorem of_class? (h : ClassTable classes t) {name : String} (hc : t.class? name = some id) :
    ∃ i c, classes[i]? = some c ∧ id = classId i ∧ c.name.name = name := by
  obtain ⟨i, c, hi, rfl⟩ := h.isClass id (isClass_of_class? hc)
  refine ⟨i, c, hi, rfl, ?_⟩
  obtain ⟨_, hk⟩ := kind?_of_class? hc
  obtain ⟨_, hk'⟩ := h.kind? i c hi
  rw [hk] at hk'
  simp_all

end ClassTable

theorem classTable_initial : ClassTable [] initial where
  primitive q := by cases q <;> rfl
  class? := by simp
  kind? := by simp
  isClass id hid := by
    exfalso
    have hkinds : ∀ k ∈ initial.kinds, k.isClass = false := by decide
    unfold isClass TypeTable.kind? at hid
    cases hk : initial.kinds[id]? with
    | none => rw [hk] at hid; simp at hid
    | some k =>
      rw [hk] at hid
      have := hkinds k (List.mem_of_getElem? hk)
      simp [this] at hid
  superclass := by simp
  classes_eq := by decide

/-! ## Entering one more class -/

theorem addClass_eq_ok {superclass : Option String}
    (h : t.addClass name superclass = .ok (id, t')) :
    t.class? name = none ∧ id = t.size ∧
      ((superclass = none ∧ t'.kinds = t.kinds ++ [.classType name []]) ∨
        ∃ base baseId, superclass = some base ∧ t.class? base = some baseId ∧
          t'.kinds = t.kinds ++ [.classType name (baseId :: t.ancestors baseId)]) := by
  unfold addClass at h
  split at h
  · simp at h
  · next hfresh =>
    have hnone : t.class? name = none := by
      rw [Bool.or_eq_true, not_or, Option.not_isSome_iff_eq_none] at hfresh
      exact hfresh.1
    cases superclass with
    | none =>
      obtain ⟨rfl, rfl⟩ := Prod.mk.inj (Except.ok.inj h)
      exact ⟨hnone, rfl, .inl ⟨rfl, rfl⟩⟩
    | some base =>
      dsimp only at h
      split at h
      · simp at h
      · next baseId hbase =>
        obtain ⟨rfl, rfl⟩ := Prod.mk.inj (Except.ok.inj h)
        exact ⟨hnone, rfl, .inr ⟨base, baseId, rfl, hbase, rfl⟩⟩

section Append

variable {t t' : TypeTable} {name : String} {ancestors : List TypeId}

theorem kind?_append_of_lt (ht : t'.kinds = t.kinds ++ [.classType name ancestors]) {id : TypeId}
    (hid : id < t.size) : t'.kind? id = t.kind? id := by
  simp only [TypeTable.kind?, ht]
  exact List.getElem?_append_left hid

theorem kind?_append_self (ht : t'.kinds = t.kinds ++ [.classType name ancestors]) :
    t'.kind? t.size = some (.classType name ancestors) := by
  simp [TypeTable.kind?, ht, size]

theorem ancestors_append_of_lt (ht : t'.kinds = t.kinds ++ [.classType name ancestors])
    {id : TypeId} (hid : id < t.size) : t'.ancestors id = t.ancestors id := by
  unfold TypeTable.ancestors
  rw [kind?_append_of_lt ht hid]

theorem class?_append (ht : t'.kinds = t.kinds ++ [.classType name ancestors])
    (other : String) :
    t'.class? other =
      (t.class? other).or (if name = other then some t.size else none) := by
  simp only [TypeTable.class?, ht, List.findIdx?_append, List.findIdx?_singleton,
    TypeKind.isClassNamed, decide_eq_true_eq, size]
  by_cases hn : name = other <;> simp [hn]

theorem classes_append (ht : t'.kinds = t.kinds ++ [.classType name ancestors]) :
    t'.classes = t.classes ++ [(t.size, name)] := by
  simp [classes, ht, List.zipIdx_append, List.filterMap_append, size]

end Append

/-- Entering the class `c` after `classes`. -/
theorem ClassTable.append {classes : List ClassDecl} {c : ClassDecl} {ancestors : List TypeId}
    (h : ClassTable classes t) (hsize : t.size = classId classes.length)
    (hfresh : t.class? c.name.name = none)
    (ht : t'.kinds = t.kinds ++ [.classType c.name.name ancestors])
    (hsuper : SuperclassEntered (classes ++ [c]) t' classes.length c) :
    ClassTable (classes ++ [c]) t' := by
  have hlt : ∀ {i : Nat} {c' : ClassDecl}, classes[i]? = some c' → classId i < t.size := by
    intro i c' hi
    rw [hsize]
    exact Nat.add_lt_add_left (List.getElem?_eq_some_iff.mp hi).1 _
  have hcases : ∀ {i : Nat} {c' : ClassDecl}, (classes ++ [c])[i]? = some c' →
      classes[i]? = some c' ∨ i = classes.length ∧ c' = c := by
    intro i c' hi
    rcases Nat.lt_or_ge i classes.length with hi' | hi'
    · rw [List.getElem?_append_left hi'] at hi
      exact .inl hi
    · rw [List.getElem?_append_right hi', List.getElem?_singleton] at hi
      split at hi
      · exact .inr ⟨by omega, (Option.some.inj hi).symm⟩
      · simp at hi
  have hself : t'.kind? (classId classes.length) = some (.classType c.name.name ancestors) := by
    rw [← hsize]
    exact kind?_append_self ht
  refine ⟨?_, ?_, ?_, ?_, ?_, ?_⟩
  · intro q
    rw [kind?_append_of_lt ht (List.getElem?_eq_some_iff.mp (h.primitive q)).1]
    exact h.primitive q
  · intro i c' hi
    rw [class?_append ht]
    rcases hcases hi with hi | ⟨rfl, rfl⟩
    · rw [h.class? i c' hi]
      rfl
    · rw [hfresh, if_pos rfl, hsize]
      rfl
  · intro i c' hi
    rcases hcases hi with hi | ⟨rfl, rfl⟩
    · rw [kind?_append_of_lt ht (hlt hi)]
      exact h.kind? i c' hi
    · exact ⟨ancestors, hself⟩
  · intro id hid
    rcases Nat.lt_trichotomy id t.size with hlt' | rfl | hgt
    · have hid' : t.isClass id = true := by
        unfold TypeTable.isClass at hid ⊢
        rw [kind?_append_of_lt ht hlt'] at hid
        exact hid
      obtain ⟨i, c', hi, rfl⟩ := h.isClass id hid'
      exact ⟨i, c', by rw [List.getElem?_append_left (List.getElem?_eq_some_iff.mp hi).1]; exact hi,
        rfl⟩
    · exact ⟨classes.length, c, by simp, hsize⟩
    · have hnone : t'.kind? id = none := by
        simp only [TypeTable.kind?, ht]
        exact List.getElem?_eq_none (by simpa [size] using Nat.succ_le_of_lt hgt)
      simp [TypeTable.isClass, hnone] at hid
  · intro i c' hi
    rcases hcases hi with hi | ⟨rfl, rfl⟩
    · rcases h.superclass i c' hi with ⟨hn, ha⟩ | ⟨base, j, b, hb, hj, hbj, hname, ha⟩
      · exact .inl ⟨hn, by rw [ancestors_append_of_lt ht (hlt hi)]; exact ha⟩
      · refine .inr ⟨base, j, b, hb, hj, ?_, hname, ?_⟩
        · rw [List.getElem?_append_left (List.getElem?_eq_some_iff.mp hbj).1]
          exact hbj
        · rw [ancestors_append_of_lt ht (hlt hi), ancestors_append_of_lt ht (hlt hbj)]
          exact ha
    · exact hsuper
  · rw [classes_append ht, h.classes_eq, hsize, List.zipIdx_append, List.map_append]
    simp

/-- The type table with one more class is in order again. -/
theorem ClassTable.addClass {classes : List ClassDecl} {c : ClassDecl} (h : ClassTable classes t)
    (hsize : t.size = classId classes.length)
    (hadd : t.addClass c.name.name (c.superclass.map (·.name)) = .ok (id, t')) :
    id = classId classes.length ∧ ClassTable (classes ++ [c]) t' ∧
      t'.size = classId (classes ++ [c]).length := by
  obtain ⟨hfresh, rfl, hcases⟩ := addClass_eq_ok hadd
  rcases hcases with ⟨hnone, ht⟩ | ⟨base, baseId, hsome, hbase, ht⟩
  · refine ⟨hsize, h.append hsize hfresh ht (.inl ⟨by simpa using hnone, ?_⟩), ?_⟩
    · rw [← hsize, TypeTable.ancestors, kind?_append_self ht]
    · simp only [size, ht, List.length_append, List.length_singleton]
      rw [← size, hsize]
      rfl
  · obtain ⟨ident, hident, rfl⟩ := Option.map_eq_some_iff.mp hsome
    obtain ⟨j, b, hj, rfl, hname⟩ := h.of_class? hbase
    have hjlt : j < classes.length := (List.getElem?_eq_some_iff.mp hj).1
    refine ⟨hsize, h.append hsize hfresh ht (.inr ⟨ident, j, b, hident, hjlt, ?_, hname, ?_⟩), ?_⟩
    · rw [List.getElem?_append_left hjlt]
      exact hj
    · have hjt : classId j < t.size := by
        rw [hsize]
        exact Nat.add_lt_add_left hjlt _
      rw [ancestors_append_of_lt ht hjt, ← hsize, TypeTable.ancestors, kind?_append_self ht]
    · simp only [size, ht, List.length_append, List.length_singleton]
      rw [← size, hsize]
      rfl

end TypeTable

end IcLir
