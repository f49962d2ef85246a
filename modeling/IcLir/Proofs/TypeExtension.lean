import IcLir.TypeTable

/-
  How the type table grows once all classes are entered. From then on only arrays and
  signatures are added, at the end, so that every number keeps its type and every question
  about classes (`class?`, `ancestors`, `isSubtype`, `classes`) keeps its answer.
-/

namespace IcLir

namespace TypeTable

/-- `t'` is `t` with more types at the end, none of them a class. -/
def Extends (t t' : TypeTable) : Prop :=
  ∃ added, t'.kinds = t.kinds ++ added ∧ ∀ k ∈ added, k.isClass = false

namespace Extends

variable {t t' t'' : TypeTable}

theorem refl (t : TypeTable) : t.Extends t := ⟨[], by simp, by simp⟩

theorem trans (h : t.Extends t') (h' : t'.Extends t'') : t.Extends t'' := by
  obtain ⟨added, ht, hadded⟩ := h
  obtain ⟨more, ht', hmore⟩ := h'
  refine ⟨added ++ more, by rw [ht', ht, List.append_assoc], ?_⟩
  intro k hk
  rcases List.mem_append.mp hk with hk | hk
  · exact hadded k hk
  · exact hmore k hk

theorem kind?_of_some (h : t.Extends t') {id : TypeId} {k : TypeKind}
    (hk : t.kind? id = some k) : t'.kind? id = some k := by
  obtain ⟨added, ht, _⟩ := h
  have hlt : id < t.kinds.length := (List.getElem?_eq_some_iff.mp hk).1
  simp only [kind?, ht]
  rw [List.getElem?_append_left hlt]
  exact hk

/-- What the longer table says about a number is what the shorter one says, or a type that is
    no class. -/
theorem kind?_cases (h : t.Extends t') (id : TypeId) :
    t'.kind? id = t.kind? id ∨
      t.kind? id = none ∧ ∃ k, t'.kind? id = some k ∧ k.isClass = false := by
  obtain ⟨added, ht, hadded⟩ := h
  simp only [kind?, ht]
  by_cases hid : id < t.kinds.length
  · exact .inl (List.getElem?_append_left hid)
  · have hle : t.kinds.length ≤ id := Nat.le_of_not_lt hid
    rw [List.getElem?_append_right hle, List.getElem?_eq_none hle]
    cases hk : added[id - t.kinds.length]? with
    | none => exact .inl rfl
    | some k => exact .inr ⟨rfl, k, rfl, hadded k (List.mem_of_getElem? hk)⟩

theorem class?_eq (h : t.Extends t') (name : String) : t'.class? name = t.class? name := by
  obtain ⟨added, ht, hadded⟩ := h
  have hnone : added.findIdx? (TypeKind.isClassNamed name) = none := by
    rw [List.findIdx?_eq_none_iff]
    intro k hk
    have hkc := hadded k hk
    cases k <;> simp_all [TypeKind.isClass, TypeKind.isClassNamed]
  simp [class?, ht, List.findIdx?_append, hnone]

theorem ancestors_eq (h : t.Extends t') (id : TypeId) : t'.ancestors id = t.ancestors id := by
  unfold ancestors
  rcases h.kind?_cases id with hk | ⟨hk, k, hk', hc⟩
  · rw [hk]
  · rw [hk, hk']
    cases k <;> simp_all [TypeKind.isClass]

theorem superclass?_eq (h : t.Extends t') (id : TypeId) :
    t'.superclass? id = t.superclass? id := by
  unfold superclass?
  rw [h.ancestors_eq]

theorem isClass_eq (h : t.Extends t') (id : TypeId) : t'.isClass id = t.isClass id := by
  unfold isClass
  rcases h.kind?_cases id with hk | ⟨hk, k, hk', hc⟩
  · rw [hk]
  · simp [hk, hk', hc]

theorem isSubtype_eq (h : t.Extends t') (sub sup : TypeId) :
    t'.isSubtype sub sup = t.isSubtype sub sup := by
  unfold isSubtype
  rw [h.ancestors_eq]

theorem element?_of_some (h : t.Extends t') {id element : TypeId}
    (he : t.element? id = some element) : t'.element? id = some element := by
  unfold element? at he ⊢
  cases hk : t.kind? id with
  | none => rw [hk] at he; simp at he
  | some k => rw [h.kind?_of_some hk]; rw [hk] at he; exact he

theorem signature?_of_some (h : t.Extends t') {id : TypeId} {s : Signature}
    (hs : t.signature? id = some s) : t'.signature? id = some s := by
  unfold signature? at hs ⊢
  cases hk : t.kind? id with
  | none => rw [hk] at hs; simp at hs
  | some k => rw [h.kind?_of_some hk]; rw [hk] at hs; exact hs

theorem signaturesMatch_of_true (h : t.Extends t') {a b : TypeId}
    (hm : t.signaturesMatch a b = true) : t'.signaturesMatch a b = true := by
  have hcompat : ∀ x y, t'.compatible x y = t.compatible x y := by
    intro x y
    unfold compatible
    rw [h.isSubtype_eq, h.isSubtype_eq]
  unfold signaturesMatch at hm ⊢
  cases ha : t.signature? a with
  | none => rw [ha] at hm; simp at hm
  | some s =>
    cases hb : t.signature? b with
    | none => rw [ha, hb] at hm; simp at hm
    | some s' =>
      rw [ha, hb] at hm
      rw [h.signature?_of_some ha, h.signature?_of_some hb]
      simpa only [hcompat] using hm

theorem isArray_of_true (h : t.Extends t') {id : TypeId} (ha : t.isArray id = true) :
    t'.isArray id = true := by
  unfold isArray at ha ⊢
  cases hk : t.kind? id with
  | none => rw [hk] at ha; simp at ha
  | some k => rw [h.kind?_of_some hk]; rw [hk] at ha; exact ha

theorem classes_eq (h : t.Extends t') : t'.classes = t.classes := by
  obtain ⟨added, ht, hadded⟩ := h
  unfold classes
  rw [ht, List.zipIdx_append, List.filterMap_append]
  rw [List.append_right_eq_self, List.filterMap_eq_nil_iff]
  rintro ⟨k, id⟩ hk
  have hc := hadded k (List.fst_mem_of_mem_zipIdx hk)
  cases k <;> simp_all [TypeKind.isClass]

end Extends

theorem extends_intern (t : TypeTable) {k : TypeKind} (hk : k.isClass = false) :
    t.Extends (t.intern k).2 := by
  unfold intern
  split
  · exact .refl t
  · exact ⟨[k], rfl, by simpa using hk⟩

theorem extends_signature (t : TypeTable) (result : TypeId) (params : List TypeId) :
    t.Extends (t.signature result params).2 :=
  extends_intern t rfl

/-- `t'` is `t` with more array types at the end. -/
def AddsArrays (t t' : TypeTable) : Prop :=
  ∃ added, t'.kinds = t.kinds ++ added ∧ ∀ k ∈ added, k.isArray = true

namespace AddsArrays

variable {t t' t'' : TypeTable}

theorem refl (t : TypeTable) : t.AddsArrays t := ⟨[], by simp, by simp⟩

theorem trans (h : t.AddsArrays t') (h' : t'.AddsArrays t'') : t.AddsArrays t'' := by
  obtain ⟨added, ht, hadded⟩ := h
  obtain ⟨more, ht', hmore⟩ := h'
  refine ⟨added ++ more, by rw [ht', ht, List.append_assoc], fun k hk => ?_⟩
  rcases List.mem_append.mp hk with hk | hk
  · exact hadded k hk
  · exact hmore k hk

theorem toExtends (h : t.AddsArrays t') : t.Extends t' := by
  obtain ⟨added, ht, hadded⟩ := h
  refine ⟨added, ht, fun k hk => ?_⟩
  have harray := hadded k hk
  cases k <;> simp_all [TypeKind.isArray, TypeKind.isClass]

/-- A signature is found where it was found before. -/
theorem idxOf?_method (h : t.AddsArrays t') (s : Signature) :
    t'.kinds.idxOf? (.method s) = t.kinds.idxOf? (.method s) := by
  obtain ⟨added, ht, hadded⟩ := h
  have hnone : added.idxOf? (.method s) = none := by
    rw [List.idxOf?_eq_none_iff]
    intro hmem
    simpa [TypeKind.isArray] using hadded _ hmem
  rw [ht]
  unfold List.idxOf? at hnone ⊢
  rw [List.findIdx?_append, hnone]
  simp

end AddsArrays

theorem addsArrays_arrayOf (t : TypeTable) (element : TypeId) :
    t.AddsArrays (t.arrayOf element).2 := by
  unfold arrayOf intern
  split
  · exact .refl t
  · exact ⟨[.array element], rfl, by simp [TypeKind.isArray]⟩

theorem addsArrays_nest (t : TypeTable) (base : TypeId) (dims : Nat) :
    t.AddsArrays (t.nest base dims).2 := by
  induction dims generalizing t base with
  | zero => exact .refl t
  | succ dims ih => exact (addsArrays_arrayOf t base).trans (ih _ _)

theorem addsArrays_resolve {t t' : TypeTable} {e : TypeExpr} {id : TypeId}
    (h : t.resolve e = .ok (id, t')) : t.AddsArrays t' := by
  unfold resolve at h
  split at h
  · next base _ =>
    have ht : (t.nest base e.dims).2 = t' := congrArg Prod.snd (Except.ok.inj h)
    exact ht ▸ addsArrays_nest ..
  · simp at h

theorem extends_arrayOf (t : TypeTable) (element : TypeId) : t.Extends (t.arrayOf element).2 :=
  (addsArrays_arrayOf t element).toExtends

theorem extends_nest (t : TypeTable) (base : TypeId) (dims : Nat) :
    t.Extends (t.nest base dims).2 :=
  (addsArrays_nest t base dims).toExtends

theorem extends_resolve {t t' : TypeTable} {e : TypeExpr} {id : TypeId}
    (h : t.resolve e = .ok (id, t')) : t.Extends t' :=
  (addsArrays_resolve h).toExtends

theorem signature?_signature (t : TypeTable) (result : TypeId) (params : List TypeId) :
    (t.signature result params).2.signature? (t.signature result params).1 =
      some ⟨result, params⟩ := by
  unfold signature signature?
  rw [kind?_intern_self]

end TypeTable

end IcLir
