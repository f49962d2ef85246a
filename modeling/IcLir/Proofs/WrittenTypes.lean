import IcLir.Proofs.ClassTable
import IcLir.Proofs.WellFormed

/-
  The types that are written in a program and their numbers. A written type resolves exactly if
  its base is known, whatever the number of brackets; once it is entered (`denoted?`) it keeps
  its number. Two written types have one number exactly if they have the same base and as many
  brackets, so signatures are compared by what is written in them (`signaturesMatch_iff`).
-/

namespace IcLir

/-- The type of arrays with elements of a written type. -/
def TypeExpr.arrayOf (e : TypeExpr) : TypeExpr := { e with dims := e.dims + 1 }

namespace TypeTable

variable {id base element : TypeId} {dims : Nat} {e : TypeExpr}

/-- The array type with `dims` pairs of brackets over `base`, if it is in the table. -/
def nested? (t : TypeTable) (base : TypeId) : Nat → Option TypeId
  | 0 => some base
  | dims + 1 => (t.kinds.idxOf? (.array base)).bind fun id => t.nested? id dims

/-- The number of a written type, if it is in the table. -/
def denoted? (t : TypeTable) (e : TypeExpr) : Option TypeId :=
  (t.base? e.base).bind fun base => t.nested? base e.dims

variable {t t' : TypeTable} {classes : List ClassDecl}

/-! ## Resolving enters a type -/

theorem idxOf?_intern (t : TypeTable) (k : TypeKind) :
    (t.intern k).2.kinds.idxOf? k = some (t.intern k).1 := by
  unfold intern
  cases hk : t.kinds.idxOf? k with
  | some id => exact hk
  | none =>
    change (t.kinds ++ [k]).idxOf? k = some t.kinds.length
    unfold List.idxOf? at hk ⊢
    rw [List.findIdx?_append, hk, List.findIdx?_singleton]
    simp

/-! What is found in a table is found in every longer one. -/

theorem idxOf?_of_isPrefix (h : t.kinds <+: t'.kinds) {k : TypeKind}
    (hk : t.kinds.idxOf? k = some id) : t'.kinds.idxOf? k = some id := by
  obtain ⟨added, ht⟩ := h
  unfold List.idxOf? at hk ⊢
  rw [← ht, List.findIdx?_append, hk]
  rfl

theorem nested?_of_isPrefix (h : t.kinds <+: t'.kinds) (hn : t.nested? base dims = some id) :
    t'.nested? base dims = some id := by
  induction dims generalizing base with
  | zero => exact hn
  | succ dims ih =>
    obtain ⟨inner, hinner, hrest⟩ := Option.bind_eq_some_iff.mp hn
    rw [nested?, idxOf?_of_isPrefix h hinner]
    exact ih hrest

theorem Extends.isPrefix (h : t.Extends t') : t.kinds <+: t'.kinds := by
  obtain ⟨added, ht, _⟩ := h
  exact ⟨added, ht.symm⟩

theorem Extends.idxOf?_of_some (h : t.Extends t') {k : TypeKind} (hk : t.kinds.idxOf? k = some id) :
    t'.kinds.idxOf? k = some id :=
  idxOf?_of_isPrefix h.isPrefix hk

theorem Extends.nested?_of_some (h : t.Extends t') (hn : t.nested? base dims = some id) :
    t'.nested? base dims = some id :=
  nested?_of_isPrefix h.isPrefix hn

theorem nested?_nest (t : TypeTable) (base : TypeId) (dims : Nat) :
    (t.nest base dims).2.nested? base dims = some (t.nest base dims).1 := by
  induction dims generalizing t base with
  | zero => rfl
  | succ dims ih =>
    have hinner : (t.arrayOf base).2.kinds.idxOf? (.array base) = some (t.arrayOf base).1 :=
      idxOf?_intern t (.array base)
    have hext := extends_nest (t.arrayOf base).2 (t.arrayOf base).1 dims
    rw [nest, nested?, hext.idxOf?_of_some hinner]
    exact ih (t.arrayOf base).2 (t.arrayOf base).1

theorem Extends.base?_eq (h : t.Extends t') (b : BaseType) : t'.base? b = t.base? b := by
  cases b with
  | named name => exact h.class?_eq name
  | _ => rfl

theorem Extends.denoted?_of_some (h : t.Extends t') (he : t.denoted? e = some id) :
    t'.denoted? e = some id := by
  unfold denoted? at he ⊢
  obtain ⟨base, hbase, hn⟩ := Option.bind_eq_some_iff.mp he
  rw [h.base?_eq, hbase]
  exact h.nested?_of_some hn

theorem denoted?_of_resolve (h : t.resolve e = .ok (id, t')) : t'.denoted? e = some id := by
  have hext := extends_resolve h
  unfold resolve at h
  cases hbase : t.base? e.base with
  | none => rw [hbase] at h; simp at h
  | some base =>
    rw [hbase] at h
    obtain ⟨rfl, rfl⟩ := Prod.mk.inj (Except.ok.inj h)
    rw [denoted?, hext.base?_eq, hbase]
    exact nested?_nest t base e.dims

/-- A base that is known has a number. -/
theorem ClassTable.isSome_base?_iff (h : ClassTable classes t) (b : BaseType) :
    (t.base? b).isSome = true ↔ b.IsKnown (classes.map (·.name.name)) := by
  cases b with
  | named name =>
    change (t.class? name).isSome = true ↔ name ∈ classes.map (·.name.name)
    rw [Option.isSome_iff_exists, List.mem_map]
    constructor
    · intro hid
      obtain ⟨id, hid⟩ := hid
      obtain ⟨i, c, hi, _, hname⟩ := h.of_class? hid
      exact ⟨c, List.mem_of_getElem? hi, hname⟩
    · intro hc
      obtain ⟨c, hc, rfl⟩ := hc
      obtain ⟨i, hi⟩ := List.mem_iff_getElem?.mp hc
      exact ⟨_, h.class? i c hi⟩
  | _ => exact ⟨fun _ => trivial, fun _ => rfl⟩

/-! ## Different types have different numbers -/

/-- Brackets can be taken off from the outside. -/
theorem nested?_succ (h : t.nested? base (dims + 1) = some id) :
    ∃ element, t.nested? base dims = some element ∧ t.kinds.idxOf? (.array element) = some id := by
  induction dims generalizing base with
  | zero =>
    obtain ⟨inner, hinner, hrest⟩ := Option.bind_eq_some_iff.mp h
    obtain rfl : inner = id := Option.some.inj hrest
    exact ⟨base, rfl, hinner⟩
  | succ dims ih =>
    obtain ⟨inner, hinner, hrest⟩ := Option.bind_eq_some_iff.mp h
    obtain ⟨element, helement, hid⟩ := ih hrest
    refine ⟨element, ?_, hid⟩
    rw [nested?, hinner]
    exact helement

theorem element?_of_idxOf? (h : t.kinds.idxOf? (.array element) = some id) :
    t.element? id = some element := by
  have hk := kind?_intern_self t (.array element)
  unfold intern at hk
  rw [h] at hk
  rw [element?, hk]

/-- Brackets can be put on from the outside. -/
theorem nested?_arrayOf (h : t.nested? base dims = some element)
    (hid : t.kinds.idxOf? (.array element) = some id) : t.nested? base (dims + 1) = some id := by
  induction dims generalizing base with
  | zero =>
    obtain rfl : base = element := Option.some.inj h
    rw [nested?, hid]
    rfl
  | succ dims ih =>
    obtain ⟨inner, hinner, hrest⟩ := Option.bind_eq_some_iff.mp h
    rw [nested?, hinner]
    exact ih hrest

/-- A written type with one more pair of brackets is the type of its arrays. -/
theorem denoted?_arrayOf (he : t.denoted? e = some element)
    (hid : t.kinds.idxOf? (.array element) = some id) : t.denoted? e.arrayOf = some id := by
  obtain ⟨base, hbase, hn⟩ := Option.bind_eq_some_iff.mp he
  unfold denoted? TypeExpr.arrayOf
  rw [hbase]
  exact nested?_arrayOf hn hid

theorem exists_element_of_denoted?_arrayOf (h : t.denoted? e.arrayOf = some id) :
    ∃ element, t.denoted? e = some element ∧ t.element? id = some element := by
  obtain ⟨base, hbase, hn⟩ := Option.bind_eq_some_iff.mp h
  obtain ⟨element, helement, hid⟩ := nested?_succ hn
  refine ⟨element, ?_, element?_of_idxOf? hid⟩
  unfold denoted?
  rw [show t.base? e.base = some base from hbase]
  exact helement

theorem nested?_inj {dims' : Nat} {base' : TypeId} (h : t.nested? base dims = some id)
    (h' : t.nested? base' dims' = some id) (hbase : t.element? base = none)
    (hbase' : t.element? base' = none) : base = base' ∧ dims = dims' := by
  induction dims generalizing dims' id with
  | zero =>
    obtain rfl : base = id := Option.some.inj h
    cases dims' with
    | zero => exact ⟨(Option.some.inj h').symm, rfl⟩
    | succ dims' =>
      obtain ⟨element, _, hid⟩ := nested?_succ h'
      rw [element?_of_idxOf? hid] at hbase
      simp at hbase
  | succ dims ih =>
    obtain ⟨element, helement, hid⟩ := nested?_succ h
    cases dims' with
    | zero =>
      obtain rfl : base' = id := Option.some.inj h'
      rw [element?_of_idxOf? hid] at hbase'
      simp at hbase'
    | succ dims' =>
      obtain ⟨element', helement', hid'⟩ := nested?_succ h'
      have heq := (element?_of_idxOf? hid).symm.trans (element?_of_idxOf? hid')
      obtain rfl : element = element' := Option.some.inj heq
      obtain ⟨hb, hd⟩ := ih helement helement'
      exact ⟨hb, congrArg (· + 1) hd⟩

namespace ClassTable

variable {id id' : TypeId} {b : BaseType} {e : TypeExpr}

/-- A base stands for a class or for a primitive other than null. -/
theorem base?_cases (h : ClassTable classes t) (hb : t.base? b = some id) :
    (∃ i c, classes[i]? = some c ∧ id = classId i ∧ b = .named c.name.name) ∨
      ∃ q : Primitive, q ≠ .null ∧ id = q.id ∧ ∀ name, b ≠ .named name := by
  cases b with
  | named name =>
    obtain ⟨i, c, hi, hid, hname⟩ := h.of_class? hb
    exact .inl ⟨i, c, hi, hid, by rw [hname]⟩
  | int => exact .inr ⟨.int, by simp, (Option.some.inj hb).symm, by simp⟩
  | boolean => exact .inr ⟨.boolean, by simp, (Option.some.inj hb).symm, by simp⟩
  | string => exact .inr ⟨.string, by simp, (Option.some.inj hb).symm, by simp⟩
  | void => exact .inr ⟨.void, by simp, (Option.some.inj hb).symm, by simp⟩

theorem element?_base? (h : ClassTable classes t) (hb : t.base? b = some id) :
    t.element? id = none := by
  rcases h.base?_cases hb with ⟨i, c, hi, rfl, _⟩ | ⟨q, _, rfl, _⟩
  · obtain ⟨ancestors, hk⟩ := h.kind? i c hi
    rw [element?, hk]
  · exact h.element?_primitive q

theorem base?_inj (h : ClassTable classes t) {b' : BaseType} (hb : t.base? b = some id)
    (hb' : t.base? b' = some id) : b = b' := by
  rcases h.base?_cases hb with ⟨i, c, hi, rfl, rfl⟩ | ⟨q, _, rfl, hq⟩
  · rcases h.base?_cases hb' with ⟨j, c', hj, hid, rfl⟩ | ⟨q', _, hid, _⟩
    · obtain rfl := classId_inj hid
      obtain rfl := Option.some.inj (hi.symm.trans hj)
      rfl
    · exact absurd hid (h.ne_primitive_of_isClass (h.isClass_classId hi) q')
  · rcases h.base?_cases hb' with ⟨j, c', hj, hid, rfl⟩ | ⟨_, _, _, hq'⟩
    · exact absurd hid.symm (h.ne_primitive_of_isClass (h.isClass_classId hj) q)
    -- two built-in types with one number
    · cases b <;> cases b' <;> first
        | rfl
        | exact absurd rfl (hq _)
        | exact absurd rfl (hq' _)
        | (exfalso; exact absurd (Option.some.inj (hb.trans hb'.symm)) (by decide))

/-- Two written types have one number exactly if they are written alike. -/
theorem denoted?_eq_iff (h : ClassTable classes t) {e' : TypeExpr} (he : t.denoted? e = some id)
    (he' : t.denoted? e' = some id') : id = id' ↔ e.shape = e'.shape := by
  constructor
  · intro hid
    subst hid
    obtain ⟨base, hbase, hn⟩ := Option.bind_eq_some_iff.mp he
    obtain ⟨base', hbase', hn'⟩ := Option.bind_eq_some_iff.mp he'
    obtain ⟨rfl, hdims⟩ := nested?_inj hn hn' (h.element?_base? hbase) (h.element?_base? hbase')
    exact Prod.ext (h.base?_inj hbase hbase') hdims
  · intro hshape
    obtain ⟨hbase, hdims⟩ := Prod.mk.inj hshape
    have heq : t.denoted? e = t.denoted? e' := by rw [denoted?, denoted?, hbase, hdims]
    exact Option.some.inj (he.symm.trans (heq.trans he'))

/-- No written type is the type of null. -/
theorem denoted?_ne_null (h : ClassTable classes t) (he : t.denoted? e = some id) :
    id ≠ TypeId.null := by
  rintro rfl
  obtain ⟨base, hbase, hn⟩ := Option.bind_eq_some_iff.mp he
  have hnull : t.nested? TypeId.null 0 = some TypeId.null := rfl
  obtain ⟨rfl, _⟩ := nested?_inj hn hnull (h.element?_base? hbase) (h.element?_primitive .null)
  rcases h.base?_cases hbase with ⟨i, _, _, hid, _⟩ | ⟨q, hq, hid, _⟩
  · exact classId_ne_null i hid.symm
  · cases q <;> simp_all [Primitive.id, TypeId.null]

/-- Types that can stand for each other are the same. -/
theorem compatible_iff (h : ClassTable classes t) (hid : id ≠ TypeId.null)
    (hid' : id' ≠ TypeId.null) : t.compatible id id' = true ↔ id = id' := by
  constructor
  · intro hc
    rw [compatible, Bool.and_eq_true] at hc
    by_cases heq : id = id'
    · exact heq
    · unfold isSubtype at hc
      rw [if_neg heq, if_neg hid, if_neg (Ne.symm heq), if_neg hid'] at hc
      have hmem : id' ∈ t.ancestors id := by simpa using hc.1
      have hmem' : id ∈ t.ancestors id' := by simpa using hc.2
      -- each would be declared before the other
      obtain ⟨i, c, hi, rfl⟩ := h.isClass id (isClass_of_mem_ancestors hmem)
      obtain ⟨j, b, hj, hb, rfl⟩ := h.mem_ancestors hi hmem
      obtain ⟨k, _, hk, _, hki⟩ := h.mem_ancestors hb hmem'
      have := classId_inj hki
      omega
  · intro heq
    subst heq
    simp [compatible, isSubtype]

end ClassTable

/-! ## Signatures -/

/-- `id` is the signature of method `m`. -/
def SignatureOf (t : TypeTable) (m : MethodDecl) (id : TypeId) : Prop :=
  ∃ sig, t.signature? id = some sig ∧ t.denoted? m.returnType = some sig.result ∧
    m.params.map (fun q => t.denoted? q.type) = sig.params.map some

/-- Numbers that stand for the written types of some parameters keep doing so. -/
theorem Extends.denoted?_params (h : t.Extends t') {params : List VarDecl} {ids : List TypeId}
    (hp : params.map (fun q => t.denoted? q.type) = ids.map some) :
    params.map (fun q => t'.denoted? q.type) = ids.map some := by
  induction params generalizing ids with
  | nil => exact hp
  | cons q params ih =>
    cases ids with
    | nil => simp at hp
    | cons id ids =>
      obtain ⟨hq, hrest⟩ := List.cons.inj hp
      rw [List.map_cons, List.map_cons, h.denoted?_of_some hq, ih hrest]

theorem SignatureOf.extend {m : MethodDecl} (h : t.SignatureOf m id) (he : t.Extends t') :
    t'.SignatureOf m id := by
  obtain ⟨sig, hsig, hresult, hparams⟩ := h
  exact ⟨sig, he.signature?_of_some hsig, he.denoted?_of_some hresult, he.denoted?_params hparams⟩

namespace ClassTable

/-- Parameters have pairwise compatible types exactly if they are written alike. -/
theorem compatible_params_iff (h : ClassTable classes t) {params params' : List VarDecl}
    {ids ids' : List TypeId} (hp : params.map (fun q => t.denoted? q.type) = ids.map some)
    (hp' : params'.map (fun q => t.denoted? q.type) = ids'.map some) :
    (ids.length = ids'.length ∧ (ids.zip ids').all (fun q => t.compatible q.1 q.2) = true) ↔
      params.map (·.type.shape) = params'.map (·.type.shape) := by
  induction params generalizing params' ids ids' with
  | nil =>
    obtain rfl : ids = [] := by simpa using hp.symm
    cases params' with
    | nil =>
      obtain rfl : ids' = [] := by simpa using hp'.symm
      simp
    | cons q params' =>
      cases ids' with
      | nil => simp at hp'
      | cons id ids' => simp
  | cons q params ih =>
    cases ids with
    | nil => simp at hp
    | cons id ids =>
      obtain ⟨hq, hrest⟩ := List.cons.inj hp
      cases params' with
      | nil =>
        obtain rfl : ids' = [] := by simpa using hp'.symm
        simp
      | cons q' params' =>
        cases ids' with
        | nil => simp at hp'
        | cons id' ids' =>
          obtain ⟨hq', hrest'⟩ := List.cons.inj hp'
          have hhead : t.compatible id id' = true ↔ q.type.shape = q'.type.shape :=
            (h.compatible_iff (h.denoted?_ne_null hq) (h.denoted?_ne_null hq')).trans
              (h.denoted?_eq_iff hq hq')
          have htail := ih hrest hrest'
          simp only [List.length_cons, Nat.add_right_cancel_iff, List.zip_cons_cons, List.all_cons,
            Bool.and_eq_true, List.map_cons, List.cons.injEq]
          rw [hhead, ← htail]
          constructor
          · intro hall
            exact ⟨hall.2.1, hall.1, hall.2.2⟩
          · intro hall
            exact ⟨hall.2.1, hall.1, hall.2.2⟩

theorem signaturesMatch_iff (h : ClassTable classes t) {m m' : MethodDecl} {id id' : TypeId}
    (hm : t.SignatureOf m id) (hm' : t.SignatureOf m' id') :
    t.signaturesMatch id id' = true ↔ m.SameSignature m' := by
  obtain ⟨sig, hsig, hresult, hparams⟩ := hm
  obtain ⟨sig', hsig', hresult', hparams'⟩ := hm'
  have hret : t.compatible sig.result sig'.result = true ↔
      m.returnType.shape = m'.returnType.shape :=
    (h.compatible_iff (h.denoted?_ne_null hresult) (h.denoted?_ne_null hresult')).trans
      (h.denoted?_eq_iff hresult hresult')
  rw [signaturesMatch, hsig, hsig', MethodDecl.SameSignature,
    ← h.compatible_params_iff hparams hparams', ← hret]
  simp only [Bool.and_eq_true, decide_eq_true_eq]
  constructor
  · intro hall
    exact ⟨hall.1.2, hall.1.1, hall.2⟩
  · intro hall
    exact ⟨⟨hall.2.1, hall.1⟩, hall.2.2⟩

/-- A signature takes one array of strings and gives nothing exactly if it is written like that. -/
theorem signature?_eq_entry_iff (h : ClassTable classes t) {m : MethodDecl} {id strings : TypeId}
    (hm : t.SignatureOf m id) (hstrings : t.kinds.idxOf? (.array TypeId.string) = some strings) :
    t.signature? id = some ⟨TypeId.void, [strings]⟩ ↔
      m.returnType.shape = (.void, 0) ∧ m.params.map (·.type.shape) = [(.string, 1)] := by
  obtain ⟨sig, hsig, hresult, hparams⟩ := hm
  have hvoid : t.denoted? ⟨.void, 0, default⟩ = some TypeId.void := rfl
  have harray : t.denoted? ⟨.string, 1, default⟩ = some strings := by
    change (t.kinds.idxOf? (.array TypeId.string)).bind _ = _
    rw [hstrings]
    rfl
  have hret := h.denoted?_eq_iff hresult hvoid
  have hone : sig.params = [strings] ↔ m.params.map (·.type.shape) = [(.string, 1)] := by
    generalize m.params = params at hparams
    generalize sig.params = ids at hparams
    match params, ids with
    | [], [] => simp
    | [], id :: ids => simp at hparams
    | q :: params, [] => simp at hparams
    | [q], [id'] =>
      have hq : t.denoted? q.type = some id' := (List.cons.inj hparams).1
      have := h.denoted?_eq_iff hq harray
      simpa [TypeExpr.shape] using this
    | [q], id' :: id'' :: ids => simp at hparams
    | q :: q' :: params, [id'] => simp at hparams
    | q :: q' :: params, id' :: id'' :: ids => simp
  rw [hsig, Option.some.injEq, ← hone]
  change sig = ⟨TypeId.void, [strings]⟩ ↔ m.returnType.shape = (BaseType.void, 0) ∧ _
  rw [show (BaseType.void, 0) = TypeExpr.shape ⟨.void, 0, default⟩ from rfl, ← hret]
  obtain ⟨result, params⟩ := sig
  simp

end ClassTable

end TypeTable

end IcLir
