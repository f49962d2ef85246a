import IcLir.Proofs.WrittenTypes

/-
  Interning of types. A type table grows by requests: for a type that is spelled or written out,
  for the arrays or the methods over types of the table, or for a new class. No request makes two
  numbers stand for one type, and every type is made from types before it (`Interned`). Numbers
  keep their types, so that a type that was asked for is found again, whatever was asked in
  between (`answer_again`).
-/

namespace IcLir

namespace TypeKind

/-- The types that a type is made from. -/
def parts : TypeKind → List TypeId
  | .primitive _ => []
  | .classType _ ancestors => ancestors
  | .array element => [element]
  | .method s => s.result :: s.params

/-- Whether two kinds are those of one type. A class is known by its name. -/
def SameType : TypeKind → TypeKind → Prop
  | .primitive q, .primitive q' => q = q'
  | .classType name _, .classType name' _ => name = name'
  | .array element, .array element' => element = element'
  | .method s, .method s' => s.result = s'.result ∧ s.params = s'.params
  | _, _ => False

theorem SameType.symm {k k' : TypeKind} (h : k.SameType k') : k'.SameType k := by
  cases k <;> cases k' <;> simp_all [SameType]

theorem sameType_self (k : TypeKind) : k.SameType k := by
  cases k <;> simp [SameType]

/-- All but a class is known by its structure. -/
theorem SameType.eq_of_not_isClass {k k' : TypeKind} (h : k.SameType k')
    (hk : k.isClass = false) : k = k' := by
  cases k <;> cases k' <;> simp_all [SameType, isClass]
  next s s' =>
    obtain ⟨result, params⟩ := s
    obtain ⟨result', params'⟩ := s'
    simp_all

theorem SameType.isClassNamed {k : TypeKind} {name : String} {ancestors : List TypeId}
    (h : k.SameType (.classType name ancestors)) : k.isClassNamed name = true := by
  cases k <;> simp_all [SameType, TypeKind.isClassNamed]

end TypeKind

/-- What a type table can be asked for. -/
inductive TypeRequest where
  | spelled (name : String)
  | written (e : TypeExpr)
  | array (element : TypeId)
  | method (result : TypeId) (params : List TypeId)
  | newClass (name : String) (superclass : Option String)

namespace TypeRequest

/-- The numbers that a request mentions. -/
def mentioned : TypeRequest → List TypeId
  | .array element => [element]
  | .method result params => result :: params
  | .spelled _ | .written _ | .newClass .. => []

def declaresClass : TypeRequest → Bool
  | .newClass .. => true
  | .spelled _ | .written _ | .array _ | .method .. => false

end TypeRequest

namespace TypeTable

variable {t t' : TypeTable} {id : TypeId}

def answer (t : TypeTable) : TypeRequest → Except DeclarationError (TypeId × TypeTable)
  | .spelled name => t.typeNamed name
  | .written e => t.resolve e
  | .array element => .ok (t.arrayOf element)
  | .method result params => .ok (t.signature result params)
  | .newClass name superclass => t.addClass name superclass

/-- The table after a request; one that is refused leaves it as it is. -/
def after (t : TypeTable) (r : TypeRequest) : TypeTable :=
  match t.answer r with
  | .ok (_, t') => t'
  | .error _ => t

/-- A request mentions types of the table only. -/
def Admits (t : TypeTable) (r : TypeRequest) : Prop := ∀ id ∈ r.mentioned, id < t.size

instance (t : TypeTable) (r : TypeRequest) : Decidable (t.Admits r) :=
  inferInstanceAs (Decidable (∀ id ∈ r.mentioned, id < t.size))

/-- Any number of requests leads from one table to the other. -/
inductive Leads (t : TypeTable) : TypeTable → Prop where
  | refl : t.Leads t
  | step {t' : TypeTable} {r : TypeRequest} : t.Leads t' → t'.Admits r → t.Leads (t'.after r)

/-! ## One entry for each type -/

structure Interned (t : TypeTable) : Prop where
  distinct : t.kinds.Pairwise fun k k' => ¬ k.SameType k'
  parts : ∀ id k, t.kind? id = some k → ∀ part ∈ k.parts, part < id

theorem interned_initial : initial.Interned where
  distinct := by
    have hall : Primitive.all.Pairwise fun q q' => ¬ q = q' := by decide
    exact List.pairwise_map.mpr hall
  parts id k hk part hpart := by
    obtain ⟨q, _, rfl⟩ := List.mem_map.mp (List.mem_of_getElem? hk)
    cases hpart

namespace Interned

variable {t : TypeTable}

theorem eq_of_sameType (h : t.Interned) {id id' : TypeId} {k k' : TypeKind}
    (hk : t.kind? id = some k) (hk' : t.kind? id' = some k') (hsame : k.SameType k') :
    id = id' := by
  obtain ⟨hid, rfl⟩ := List.getElem?_eq_some_iff.mp hk
  obtain ⟨hid', rfl⟩ := List.getElem?_eq_some_iff.mp hk'
  have hdistinct := List.pairwise_iff_getElem.mp h.distinct
  rcases Nat.lt_trichotomy id id' with hlt | heq | hlt
  · exact absurd hsame (hdistinct id id' hid hid' hlt)
  · exact heq
  · exact absurd hsame.symm (hdistinct id' id hid' hid hlt)

/-- A new type at the end, made from types of the table. -/
theorem push (h : t.Interned) {k : TypeKind} (hnew : ∀ k' ∈ t.kinds, ¬ k'.SameType k)
    (hparts : ∀ part ∈ k.parts, part < t.size) : (t.push k).2.Interned where
  distinct := by
    refine List.pairwise_append.mpr ⟨h.distinct, List.pairwise_singleton _ _, ?_⟩
    intro k' hk' k'' hk''
    obtain rfl := List.mem_singleton.mp hk''
    exact hnew k' hk'
  parts id k' hk' part hpart := by
    have hlen : id < t.size + 1 := by
      simpa [TypeTable.push, size] using (List.getElem?_eq_some_iff.mp hk').1
    rcases Nat.lt_succ_iff_lt_or_eq.mp hlen with hlt | rfl
    · rw [kind?_push_of_lt t k hlt] at hk'
      exact h.parts id k' hk' part hpart
    · obtain rfl : k = k' := Option.some.inj ((kind?_push_self t k).symm.trans hk')
      exact hparts part hpart

end Interned

/-! ## What a request does -/

/-- The table `t'` holds what `t` holds, and the type `id`. -/
structure Enters (t : TypeTable) (id : TypeId) (t' : TypeTable) : Prop where
  interned : t'.Interned
  isPrefix : t.kinds <+: t'.kinds
  lt_size : id < t'.size

theorem size_le_of_isPrefix (h : t.kinds <+: t'.kinds) : t.size ≤ t'.size :=
  h.length_le

theorem kind?_of_isPrefix (h : t.kinds <+: t'.kinds) (hid : id < t.size) :
    t'.kind? id = t.kind? id := by
  obtain ⟨added, ht⟩ := h
  rw [kind?, ← ht]
  exact List.getElem?_append_left hid

section

variable {t t' : TypeTable} {id : TypeId}

theorem enters_of_lt (h : t.Interned) (hid : id < t.size) : t.Enters id t :=
  ⟨h, List.prefix_refl _, hid⟩

theorem Enters.trans {t'' : TypeTable} {id' : TypeId} (h : t.Enters id t')
    (h' : t'.Enters id' t'') : t.Enters id' t'' :=
  ⟨h'.interned, h.isPrefix.trans h'.isPrefix, h'.lt_size⟩

theorem enters_push (h : t.Interned) {k : TypeKind} (hnew : ∀ k' ∈ t.kinds, ¬ k'.SameType k)
    (hparts : ∀ part ∈ k.parts, part < t.size) : t.Enters (t.push k).1 (t.push k).2 where
  interned := h.push hnew hparts
  isPrefix := List.prefix_append _ _
  lt_size := by simp [push, size]

/-- A structural type that is not found is new. -/
theorem enters_intern (h : t.Interned) {k : TypeKind} (hk : k.isClass = false)
    (hparts : ∀ part ∈ k.parts, part < t.size) : t.Enters (t.intern k).1 (t.intern k).2 := by
  unfold intern
  cases hfound : t.kinds.idxOf? k with
  | some id =>
    obtain ⟨hid, _⟩ := List.findIdx?_eq_some_iff_getElem.mp hfound
    exact enters_of_lt h hid
  | none =>
    have hmem : k ∉ t.kinds := List.idxOf?_eq_none_iff.mp hfound
    refine enters_push h (fun k' hk' hsame => hmem ?_) hparts
    rw [hsame.symm.eq_of_not_isClass hk]
    exact hk'

theorem enters_nest (h : t.Interned) {base : TypeId} (hbase : base < t.size) (dims : Nat) :
    t.Enters (t.nest base dims).1 (t.nest base dims).2 := by
  induction dims generalizing t base with
  | zero => exact enters_of_lt h hbase
  | succ dims ih =>
    have harray : t.Enters (t.arrayOf base).1 (t.arrayOf base).2 := by
      refine enters_intern h rfl fun part hpart => ?_
      rw [List.mem_singleton.mp hpart]
      exact hbase
    exact harray.trans (ih harray.interned harray.lt_size)

theorem lt_size_of_class? {name : String} (h : t.class? name = some id) : id < t.size :=
  (List.findIdx?_eq_some_iff_getElem.mp h).1

theorem not_sameType_of_class?_eq_none {name : String} {ancestors : List TypeId}
    (h : t.class? name = none) : ∀ k ∈ t.kinds, ¬ k.SameType (.classType name ancestors) := by
  intro k hk hsame
  have hother : k.isClassNamed name = false := List.findIdx?_eq_none_iff.mp h k hk
  rw [hsame.isClassNamed] at hother
  cases hother

/-- The superclasses of a class of the table come before it. -/
theorem Interned.lt_of_mem_ancestors (h : t.Interned) {part : TypeId}
    (hpart : part ∈ t.ancestors id) : part < id := by
  unfold ancestors at hpart
  cases hk : t.kind? id with
  | none =>
    rw [hk] at hpart
    cases hpart
  | some k =>
    rw [hk] at hpart
    cases k with
    | classType name ancestors => exact h.parts id _ hk part hpart
    | primitive | array | method => cases hpart

theorem enters_addClass (h : t.Interned) {name : String} {superclass : Option String}
    (hadd : t.addClass name superclass = .ok (id, t')) : t.Enters id t' := by
  obtain ⟨kinds⟩ := t'
  obtain ⟨hfresh, rfl, ⟨_, rfl⟩ | ⟨base, baseId, _, hbase, rfl⟩⟩ := addClass_eq_ok hadd
  · refine enters_push h (not_sameType_of_class?_eq_none hfresh) fun part hpart => ?_
    cases hpart
  · have hlt := lt_size_of_class? hbase
    refine enters_push h (not_sameType_of_class?_eq_none hfresh) fun part hpart => ?_
    rcases List.mem_cons.mp hpart with rfl | hpart
    · exact hlt
    · exact Nat.lt_trans (h.lt_of_mem_ancestors hpart) hlt

end

/-! ## Names of types -/

/-- The number that the base of a spelled-out name has: the primitives' names come first. -/
def spelledBase? (t : TypeTable) (base : String) : Option TypeId :=
  ((Primitive.named? base).map Primitive.id).or (t.class? base)

/-- The base and the pairs of brackets of a spelled-out name. -/
def spelling (name : String) : String × Nat :=
  let (dims, reversed) := splitBrackets name.toList.reverse
  (String.ofList reversed.reverse, dims)

theorem typeNamed_eq_ok {name : String} :
    t.typeNamed name = .ok (id, t') ↔
      ∃ base, t.spelledBase? (spelling name).1 = some base ∧
        t.nest base (spelling name).2 = (id, t') := by
  simp only [typeNamed, spelling, spelledBase?]
  cases ((Primitive.named? (String.ofList (splitBrackets name.toList.reverse).2.reverse)).map
    Primitive.id).or (t.class? (String.ofList (splitBrackets name.toList.reverse).2.reverse)) <;>
    simp

theorem resolve_eq_ok {e : TypeExpr} :
    t.resolve e = .ok (id, t') ↔
      ∃ base, t.base? e.base = some base ∧ t.nest base e.dims = (id, t') := by
  unfold resolve
  cases t.base? e.base <;> simp

section

variable {t t' : TypeTable}

theorem class?_of_isPrefix (h : t.kinds <+: t'.kinds) {name : String} {id : TypeId}
    (hid : t.class? name = some id) : t'.class? name = some id := by
  obtain ⟨added, ht⟩ := h
  unfold class? at hid ⊢
  rw [← ht, List.findIdx?_append, hid]
  rfl

theorem base?_of_isPrefix (h : t.kinds <+: t'.kinds) {b : BaseType} {id : TypeId}
    (hid : t.base? b = some id) : t'.base? b = some id := by
  cases b with
  | named name => exact class?_of_isPrefix h hid
  | int | boolean | string | void => exact hid

theorem spelledBase?_of_isPrefix (h : t.kinds <+: t'.kinds) {base : String} {id : TypeId}
    (hid : t.spelledBase? base = some id) : t'.spelledBase? base = some id := by
  unfold spelledBase? at hid ⊢
  cases hprimitive : Primitive.named? base with
  | some q =>
    rw [hprimitive] at hid
    exact hid
  | none =>
    rw [hprimitive] at hid
    exact class?_of_isPrefix h hid

theorem lt_size_of_primitive (h : initial.kinds <+: t.kinds) (q : Primitive) : q.id < t.size := by
  have hq : q.id < initial.size := by cases q <;> decide
  exact Nat.lt_of_lt_of_le hq (size_le_of_isPrefix h)

theorem lt_size_of_base? (h : initial.kinds <+: t.kinds) {b : BaseType} {id : TypeId}
    (hid : t.base? b = some id) : id < t.size := by
  cases b with
  | named name => exact lt_size_of_class? hid
  | int => exact Option.some.inj hid ▸ lt_size_of_primitive h .int
  | boolean => exact Option.some.inj hid ▸ lt_size_of_primitive h .boolean
  | string => exact Option.some.inj hid ▸ lt_size_of_primitive h .string
  | void => exact Option.some.inj hid ▸ lt_size_of_primitive h .void

theorem lt_size_of_spelledBase? (h : initial.kinds <+: t.kinds) {base : String} {id : TypeId}
    (hid : t.spelledBase? base = some id) : id < t.size := by
  unfold spelledBase? at hid
  cases hprimitive : Primitive.named? base with
  | some q =>
    rw [hprimitive] at hid
    exact Option.some.inj hid ▸ lt_size_of_primitive h q
  | none =>
    rw [hprimitive] at hid
    exact lt_size_of_class? hid

end

/-! ## Asking again -/

theorem intern_of_idxOf? {k : TypeKind} (h : t.kinds.idxOf? k = some id) :
    t.intern k = (id, t) := by
  unfold intern
  rw [h]

theorem nest_of_nested? {dims : Nat} {base : TypeId} (h : t.nested? base dims = some id) :
    t.nest base dims = (id, t) := by
  induction dims generalizing base with
  | zero => rw [nest, Option.some.inj h]
  | succ dims ih =>
    obtain ⟨inner, hinner, hrest⟩ := Option.bind_eq_some_iff.mp h
    rw [nest, arrayOf, intern_of_idxOf? hinner]
    exact ih hrest

section

variable {t later : TypeTable}

theorem intern_again {k : TypeKind} (h : (t.intern k).2.kinds <+: later.kinds) :
    later.intern k = ((t.intern k).1, later) :=
  intern_of_idxOf? (idxOf?_of_isPrefix h (idxOf?_intern t k))

theorem nest_again {t' : TypeTable} {base id : TypeId} {dims : Nat}
    (hnest : t.nest base dims = (id, t')) (h : t'.kinds <+: later.kinds) :
    later.nest base dims = (id, later) := by
  have hfound := nested?_nest t base dims
  rw [hnest] at hfound
  exact nest_of_nested? (nested?_of_isPrefix h hfound)

/-- Once a type has a number, it is found and nothing is entered. -/
theorem answer_again {t' : TypeTable} {r : TypeRequest} {id : TypeId}
    (h : t.answer r = .ok (id, t')) (hr : r.declaresClass = false)
    (hold : t.kinds <+: later.kinds) (hlater : t'.kinds <+: later.kinds) :
    later.answer r = .ok (id, later) := by
  cases r with
  | spelled name =>
    obtain ⟨base, hbase, hnest⟩ := typeNamed_eq_ok.mp h
    exact typeNamed_eq_ok.mpr ⟨base, spelledBase?_of_isPrefix hold hbase, nest_again hnest hlater⟩
  | written e =>
    obtain ⟨base, hbase, hnest⟩ := resolve_eq_ok.mp h
    exact resolve_eq_ok.mpr ⟨base, base?_of_isPrefix hold hbase, nest_again hnest hlater⟩
  | array | method =>
    obtain ⟨rfl, rfl⟩ := Prod.mk.inj (Except.ok.inj h)
    exact congrArg Except.ok (intern_again hlater)
  | newClass name superclass => cases hr

end

/-! ## Any number of requests -/

section

variable {t t' : TypeTable} {r : TypeRequest}

theorem enters_of_answer (h : t.Interned) (hinitial : initial.kinds <+: t.kinds)
    (hr : t.Admits r) {id : TypeId} (ha : t.answer r = .ok (id, t')) : t.Enters id t' := by
  cases r with
  | spelled name =>
    obtain ⟨base, hbase, hnest⟩ := typeNamed_eq_ok.mp ha
    have henters := enters_nest h (lt_size_of_spelledBase? hinitial hbase) (spelling name).2
    rwa [hnest] at henters
  | written e =>
    obtain ⟨base, hbase, hnest⟩ := resolve_eq_ok.mp ha
    have henters := enters_nest h (lt_size_of_base? hinitial hbase) e.dims
    rwa [hnest] at henters
  | array | method =>
    obtain ⟨rfl, rfl⟩ := Prod.mk.inj (Except.ok.inj ha)
    exact enters_intern h rfl hr
  | newClass name superclass => exact enters_addClass h ha

/-- Each request keeps the table interned and only adds at its end. -/
theorem interned_after (h : t.Interned) (hinitial : initial.kinds <+: t.kinds)
    (hr : t.Admits r) : (t.after r).Interned ∧ t.kinds <+: (t.after r).kinds := by
  unfold after
  cases ha : t.answer r with
  | error e => exact ⟨h, List.prefix_refl _⟩
  | ok result =>
    have henters := enters_of_answer h hinitial hr ha
    exact ⟨henters.interned, henters.isPrefix⟩

/-- A request enters a class, or nothing but arrays and signatures. -/
theorem after_cases (t : TypeTable) (r : TypeRequest) :
    t.Extends (t.after r) ∨
      ∃ name superclass id, t.addClass name superclass = .ok (id, t.after r) := by
  unfold after
  cases ha : t.answer r with
  | error e => exact .inl (.refl t)
  | ok result =>
    obtain ⟨id, t'⟩ := result
    cases r with
    | spelled name =>
      obtain ⟨base, _, hnest⟩ := typeNamed_eq_ok.mp ha
      have he := extends_nest t base (spelling name).2
      rw [hnest] at he
      exact .inl he
    | written e => exact .inl (extends_resolve ha)
    | array element =>
      obtain ⟨rfl, rfl⟩ := Prod.mk.inj (Except.ok.inj ha)
      exact .inl (extends_arrayOf t element)
    | method result params =>
      obtain ⟨rfl, rfl⟩ := Prod.mk.inj (Except.ok.inj ha)
      exact .inl (extends_signature t result params)
    | newClass name superclass => exact .inr ⟨name, superclass, id, ha⟩

theorem Leads.interned (h : t.Leads t') (ht : t.Interned) (hinitial : initial.kinds <+: t.kinds) :
    t'.Interned ∧ t.kinds <+: t'.kinds := by
  induction h with
  | refl => exact ⟨ht, List.prefix_refl _⟩
  | step _ hr ih =>
    obtain ⟨hinterned, hprefix⟩ := ih
    obtain ⟨hafter, hgrown⟩ := interned_after hinterned (hinitial.trans hprefix) hr
    exact ⟨hafter, hprefix.trans hgrown⟩

end

/-- `class A`, `class B extends A`, the method type `B[][] -> void` and a request that fails. -/
def sample : TypeTable :=
  ((((initial.after (.newClass "A" none)).after (.newClass "B" (some "A"))).after
    (.written ⟨.named "B", 2, Span.ofLine 1⟩)).after (.method TypeId.void [8])).after
    (.spelled "C[]")

theorem leads_sample : initial.Leads sample := by
  refine .step (.step (.step (.step (.step .refl ?_) ?_) ?_) ?_) ?_ <;> decide +kernel

end TypeTable

end IcLir
