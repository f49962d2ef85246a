import IcLir.Proofs.TypeInterning

/-
  Subtyping is an order. In every table that requests lead to, the superclass of a class is a
  class that was entered before it (`Descends`). So the search for a type among the superclasses
  of another one comes to an end (`climbs_superclass?`), and no two types are below each other.
  Two types that can stand for each other are therefore one type, and two signatures that match
  are one signature, since no type is entered twice.
-/

namespace IcLir

namespace TypeTable

/-- A search for `sup` that goes from class to superclass, and whether it ends at `sup`. -/
inductive Climbs (t : TypeTable) (sup : TypeId) : Option TypeId → Bool → Prop where
  | top : t.Climbs sup none false
  | found : t.Climbs sup (some sup) true
  | up {id : TypeId} {found : Bool} : id ≠ sup → t.Climbs sup (t.superclass? id) found →
    t.Climbs sup (some id) found

/-- The superclasses of a class are a class before it and the superclasses of that class. -/
def Descends (t : TypeTable) : Prop :=
  ∀ id, t.ancestors id = [] ∨
    ∃ base, base < id ∧ t.isClass base = true ∧ t.ancestors id = base :: t.ancestors base

/-! ## Superclasses come first -/

theorem ancestors_eq_nil_of_not_isClass {t : TypeTable} {id : TypeId}
    (h : t.isClass id = false) : t.ancestors id = [] := by
  refine List.eq_nil_iff_forall_not_mem.mpr fun base hbase => ?_
  rw [ClassTable.isClass_of_mem_ancestors hbase] at h
  cases h

theorem descends_initial : initial.Descends := by
  intro id
  refine .inl (ancestors_eq_nil_of_not_isClass ?_)
  cases hclass : initial.isClass id with
  | false => rfl
  | true =>
    obtain ⟨_, _, hi, _⟩ := classTable_initial.isClass id hclass
    cases hi

section

variable {t t' : TypeTable}

/-- Arrays and signatures have no part in it. -/
theorem Descends.extend (h : t.Descends) (he : t.Extends t') : t'.Descends := by
  intro id
  rcases h id with hnone | ⟨base, hlt, hclass, hbase⟩
  · exact .inl ((he.ancestors_eq id).trans hnone)
  · refine .inr ⟨base, hlt, (he.isClass_eq base).trans hclass, ?_⟩
    rw [he.ancestors_eq, he.ancestors_eq, hbase]

/-- A class at the end, with no superclass or below a class of the table. -/
theorem Descends.append (h : t.Descends) {name : String} {ancestors : List TypeId}
    (ht : t'.kinds = t.kinds ++ [.classType name ancestors])
    (hancestors : ancestors = [] ∨ ∃ base, base < t.size ∧ t.isClass base = true ∧
      ancestors = base :: t.ancestors base) : t'.Descends := by
  have hkept : ∀ {base}, base < t.size → t.isClass base = true → t'.isClass base = true := by
    intro base hlt hclass
    rwa [isClass, kind?_append_of_lt ht hlt]
  intro id
  rcases Nat.lt_trichotomy id t.size with hlt | rfl | hgt
  · rw [ancestors_append_of_lt ht hlt]
    rcases h id with hnone | ⟨base, hbase, hclass, heq⟩
    · exact .inl hnone
    · have hbase' := Nat.lt_trans hbase hlt
      rw [← ancestors_append_of_lt ht hbase'] at heq
      exact .inr ⟨base, hbase, hkept hbase' hclass, heq⟩
  · rw [TypeTable.ancestors, kind?_append_self ht]
    rcases hancestors with hnone | ⟨base, hbase, hclass, heq⟩
    · exact .inl hnone
    · rw [← ancestors_append_of_lt ht hbase] at heq
      exact .inr ⟨base, hbase, hkept hbase hclass, heq⟩
  · have hnone : t'.kind? id = none := by
      rw [kind?, List.getElem?_eq_none_iff, ht, List.length_append]
      exact hgt
    exact .inl (ancestors_eq_nil_of_not_isClass (by rw [isClass, hnone]; rfl))

theorem Descends.addClass (h : t.Descends) {name : String} {superclass : Option String}
    {id : TypeId} (hadd : t.addClass name superclass = .ok (id, t')) : t'.Descends := by
  obtain ⟨_, _, ⟨_, ht⟩ | ⟨base, baseId, _, hbase, ht⟩⟩ := addClass_eq_ok hadd
  · exact h.append ht (.inl rfl)
  · exact h.append ht (.inr ⟨baseId, lt_size_of_class? hbase, isClass_of_class? hbase, rfl⟩)

theorem Descends.after (h : t.Descends) (r : TypeRequest) : (t.after r).Descends := by
  rcases t.after_cases r with he | ⟨_, _, _, hadd⟩
  · exact h.extend he
  · exact h.addClass hadd

theorem Leads.descends (h : t.Leads t') (ht : t.Descends) : t'.Descends := by
  induction h with
  | refl => exact ht
  | step _ _ ih => exact ih.after _

end

/-! ## The order -/

/-- What subtyping rests on: superclasses come first, and the primitives are no classes. -/
structure Ordered (t : TypeTable) : Prop where
  descends : t.Descends
  primitive : ∀ q : Primitive, t.isClass q.id = false

theorem Leads.ordered {t : TypeTable} (h : initial.Leads t) : t.Ordered := by
  refine ⟨h.descends descends_initial, fun q => ?_⟩
  have hprefix := (h.interned interned_initial (List.prefix_refl _)).2
  have hlt : q.id < initial.size := by cases q <;> decide
  rw [isClass, kind?_of_isPrefix hprefix hlt]
  exact classTable_initial.isClass_primitive q

section

variable {t : TypeTable} {a b c : TypeId}

/-- From a class on down to its subclasses. -/
theorem Descends.induction (h : t.Descends) {motive : TypeId → Prop}
    (top : ∀ id, t.ancestors id = [] → motive id)
    (below : ∀ id base, base < id → t.isClass base = true →
      t.ancestors id = base :: t.ancestors base → motive base → motive id) (id : TypeId) :
    motive id := by
  induction id using Nat.strongRecOn with
  | ind id ih =>
    rcases h id with hnone | ⟨base, hlt, hclass, hbase⟩
    · exact top id hnone
    · exact below id base hlt hclass hbase (ih base hlt)

/-- The search among the superclasses ends, with what the list of them says. -/
theorem Descends.climbs_superclass? (h : t.Descends) (sub sup : TypeId) :
    t.Climbs sup (t.superclass? sub) ((t.ancestors sub).contains sup) := by
  induction sub using h.induction with
  | top sub hnone =>
    rw [superclass?, hnone]
    exact .top
  | below sub base _ _ hbase ih =>
    rw [superclass?, hbase, List.head?_cons, List.contains_cons]
    by_cases heq : sup = base
    · rw [heq, beq_self_eq_true, Bool.true_or]
      exact .found
    · rw [beq_false_of_ne heq, Bool.false_or]
      exact .up (Ne.symm heq) ih

theorem Descends.of_mem (h : t.Descends) (hb : b ∈ t.ancestors a) :
    t.isClass b = true ∧ b < a := by
  induction a using h.induction with
  | top a hnone =>
    rw [hnone] at hb
    cases hb
  | below a base hlt hclass hbase ih =>
    rw [hbase] at hb
    rcases List.mem_cons.mp hb with rfl | hb
    · exact ⟨hclass, hlt⟩
    · exact ⟨(ih hb).1, Nat.lt_trans (ih hb).2 hlt⟩

theorem Descends.mem_trans (h : t.Descends) (hb : b ∈ t.ancestors a) (hc : c ∈ t.ancestors b) :
    c ∈ t.ancestors a := by
  induction a using h.induction with
  | top a hnone =>
    rw [hnone] at hb
    cases hb
  | below a base _ _ hbase ih =>
    rw [hbase] at hb ⊢
    rcases List.mem_cons.mp hb with rfl | hb
    · exact List.mem_cons_of_mem _ hc
    · exact List.mem_cons_of_mem _ (ih hb)

/-- The types that null cannot stand for. -/
def nonNull : List TypeId := [TypeId.int, TypeId.boolean, TypeId.void]

theorem isSubtype_null_iff : t.isSubtype TypeId.null a = true ↔ a ∉ nonNull := by
  unfold isSubtype
  split
  · next heq =>
    rw [← heq]
    decide
  · simp [nonNull, and_assoc]

theorem isSubtype_iff :
    t.isSubtype a b = true ↔
      a = b ∨ (a = TypeId.null ∧ b ∉ nonNull) ∨ (a ≠ TypeId.null ∧ b ∈ t.ancestors a) := by
  by_cases hnull : a = TypeId.null
  · subst hnull
    rw [isSubtype_null_iff]
    have hself : TypeId.null ∉ nonNull := by decide
    grind
  · rw [isSubtype, if_neg hnull]
    split <;> simp_all

namespace Ordered

theorem not_mem_nonNull_of_isClass (h : t.Ordered) (ha : t.isClass a = true) : a ∉ nonNull := by
  intro hmem
  simp only [nonNull, List.mem_cons, List.not_mem_nil, or_false] at hmem
  rcases hmem with rfl | rfl | rfl
  · cases ha.symm.trans (h.primitive .int)
  · cases ha.symm.trans (h.primitive .boolean)
  · cases ha.symm.trans (h.primitive .void)

theorem ne_null_of_isClass (h : t.Ordered) (ha : t.isClass a = true) : a ≠ TypeId.null := by
  rintro rfl
  cases ha.symm.trans (h.primitive .null)

theorem isSubtype_trans (h : t.Ordered) (hab : t.isSubtype a b = true)
    (hbc : t.isSubtype b c = true) : t.isSubtype a c = true := by
  rw [isSubtype_iff] at hab hbc ⊢
  rcases hbc with rfl | ⟨rfl, hc⟩ | ⟨hb, hc⟩
  · exact hab
  · -- only null itself is below null
    rcases hab with rfl | ⟨ha, _⟩ | ⟨_, hmem⟩
    · exact .inr (.inl ⟨rfl, hc⟩)
    · exact .inr (.inl ⟨ha, hc⟩)
    · exact absurd rfl (h.ne_null_of_isClass (h.descends.of_mem hmem).1)
  · rcases hab with rfl | ⟨ha, _⟩ | ⟨ha, hmem⟩
    · exact .inr (.inr ⟨hb, hc⟩)
    · have hclass := (h.descends.of_mem hc).1
      exact .inr (.inl ⟨ha, h.not_mem_nonNull_of_isClass hclass⟩)
    · exact .inr (.inr ⟨ha, h.descends.mem_trans hmem hc⟩)

theorem isSubtype_antisymm (h : t.Ordered) (hab : t.isSubtype a b = true)
    (hba : t.isSubtype b a = true) : a = b := by
  rw [isSubtype_iff] at hab hba
  rcases hab with heq | ⟨ha, _⟩ | ⟨ha, hmem⟩
  · exact heq
  · rcases hba with heq | ⟨hb, _⟩ | ⟨_, hmem'⟩
    · exact heq.symm
    · exact ha.trans hb.symm
    · exact absurd ha (h.ne_null_of_isClass (h.descends.of_mem hmem').1)
  · rcases hba with heq | ⟨hb, _⟩ | ⟨_, hmem'⟩
    · exact heq.symm
    · exact absurd hb (h.ne_null_of_isClass (h.descends.of_mem hmem).1)
    · -- each would have been entered before the other
      exact absurd (h.descends.of_mem hmem).2 (Nat.lt_asymm (h.descends.of_mem hmem').2)

theorem compatible_iff (h : t.Ordered) : t.compatible a b = true ↔ a = b := by
  rw [compatible, Bool.and_eq_true]
  constructor
  · intro hboth
    exact h.isSubtype_antisymm hboth.1 hboth.2
  · rintro rfl
    exact ⟨ClassTable.isSubtype_self a, ClassTable.isSubtype_self a⟩

theorem all_compatible_iff (h : t.Ordered) {as bs : List TypeId} (hlen : as.length = bs.length) :
    ((as.zip bs).all fun p => t.compatible p.1 p.2) = true ↔ as = bs := by
  induction as generalizing bs with
  | nil =>
    obtain rfl : bs = [] := List.length_eq_zero_iff.mp hlen.symm
    simp
  | cons a as ih =>
    cases bs with
    | nil => cases hlen
    | cons b bs =>
      rw [List.zip_cons_cons, List.all_cons, Bool.and_eq_true, h.compatible_iff,
        ih (Nat.succ.inj hlen), List.cons.injEq]

theorem signaturesMatch_iff (h : t.Ordered) {s s' : Signature} (ha : t.signature? a = some s)
    (hb : t.signature? b = some s') : t.signaturesMatch a b = true ↔ s = s' := by
  obtain ⟨result, params⟩ := s
  obtain ⟨result', params'⟩ := s'
  rw [signaturesMatch, ha, hb, Signature.mk.injEq]
  simp only [Bool.and_eq_true, decide_eq_true_eq, h.compatible_iff]
  constructor
  · rintro ⟨⟨hlen, hresult⟩, hparams⟩
    exact ⟨hresult, (h.all_compatible_iff hlen).mp hparams⟩
  · rintro ⟨rfl, rfl⟩
    exact ⟨⟨rfl, rfl⟩, (h.all_compatible_iff rfl).mpr rfl⟩

end Ordered

theorem kind?_of_signature? {s : Signature} (h : t.signature? a = some s) :
    t.kind? a = some (.method s) := by
  unfold signature? at h
  cases hk : t.kind? a with
  | none =>
    rw [hk] at h
    cases h
  | some k =>
    rw [hk] at h
    cases k with
    | method s' => rw [Option.some.inj h]
    | primitive | classType | array => cases h

end

/-- Whatever a type table has been asked for: the search for a type among the superclasses of
    another one ends, subtyping is reflexive, transitive and antisymmetric, and null is below
    every type, itself included, but `int`, `boolean` and `void`. Only one and the same type is
    compatible with itself in both directions, and of two signatures the same holds for matching. -/
theorem subtyping_is_partial_order {t : TypeTable} (h : initial.Leads t) :
    (∀ sub sup, t.Climbs sup (t.superclass? sub) ((t.ancestors sub).contains sup)) ∧
    (∀ a, t.isSubtype a a = true) ∧
    (∀ a b c, t.isSubtype a b = true → t.isSubtype b c = true → t.isSubtype a c = true) ∧
    (∀ a b, t.isSubtype a b = true → t.isSubtype b a = true → a = b) ∧
    (∀ a, t.isSubtype TypeId.null a = true ↔
      a = TypeId.null ∨ a ∉ [TypeId.int, TypeId.boolean, TypeId.void]) ∧
    (∀ a b, t.compatible a b = true ↔ a = b) ∧
    ∀ a b s s', t.signature? a = some s → t.signature? b = some s' →
      (t.signaturesMatch a b = true ↔ a = b) := by
  have hordered := h.ordered
  have hinterned := (h.interned interned_initial (List.prefix_refl _)).1
  refine ⟨hordered.descends.climbs_superclass?, ClassTable.isSubtype_self,
    fun a b c => hordered.isSubtype_trans, fun a b => hordered.isSubtype_antisymm, fun a => ?_,
    fun a b => hordered.compatible_iff, fun a b s s' ha hb => ?_⟩
  · rw [isSubtype_null_iff]
    refine ⟨.inr, ?_⟩
    rintro (rfl | hother)
    · decide
    · exact hother
  · rw [hordered.signaturesMatch_iff ha hb]
    constructor
    · rintro rfl
      exact hinterned.eq_of_sameType (kind?_of_signature? ha) (kind?_of_signature? hb)
        (TypeKind.sameType_self _)
    · rintro rfl
      exact Option.some.inj (ha.symm.trans hb)

/-- `class A`, `int[]`, `class B extends A`, `class C extends B` and two method types. -/
def lineage : TypeTable :=
  (((((initial.after (.newClass "A" none)).after (.array TypeId.int)).after
    (.newClass "B" (some "A"))).after (.newClass "C" (some "B"))).after
    (.method TypeId.void [8])).after (.method 5 [8])

theorem subtyping_is_partial_order_lineage :
    initial.Leads lineage ∧ lineage.superclass? 8 = some 7 ∧ lineage.superclass? 7 = some 5 ∧
    lineage.Climbs 5 (some 7) true ∧ lineage.Climbs 6 (some 7) false ∧
    lineage.isSubtype 8 5 = true ∧ lineage.isSubtype 5 8 = false ∧
    lineage.signaturesMatch 9 10 = false := by
  have hleads : initial.Leads lineage := by
    refine .step (.step (.step (.step (.step (.step .refl ?_) ?_) ?_) ?_) ?_) ?_ <;>
      decide
  have hsuper : lineage.superclass? 8 = some 7 := by decide
  have hsub : lineage.isSubtype 8 7 = true ∧ lineage.isSubtype 7 5 = true := by decide
  obtain ⟨hclimbs, _, htrans, hantisymm, _, _, hmatch⟩ := subtyping_is_partial_order hleads
  have hfound := hclimbs 8 5
  have hmissed := hclimbs 8 6
  have habove : (lineage.ancestors 8).contains 5 = true ∧
      (lineage.ancestors 8).contains 6 = false := by decide
  rw [hsuper, habove.1] at hfound
  rw [hsuper, habove.2] at hmissed
  have hbelow := htrans 8 7 5 hsub.1 hsub.2
  refine ⟨hleads, hsuper, by decide, hfound, hmissed, hbelow, ?_, ?_⟩
  · cases hback : lineage.isSubtype 5 8 with
    | false => rfl
    | true => cases hantisymm 5 8 hback hbelow
  · have hsame := hmatch 9 10 ⟨TypeId.void, [8]⟩ ⟨5, [8]⟩ (by decide) (by decide)
    cases hmatched : lineage.signaturesMatch 9 10 with
    | false => rfl
    | true => cases hsame.mp hmatched

end TypeTable

end IcLir
