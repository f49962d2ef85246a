import IcLir.Proofs.Accepted
import IcLir.Proofs.Evaluation
import IcLir.Proofs.MemberOwners

/-
  Type soundness of expressions. In a state whose values fit their types, a well-typed
  expression without calls and allocations has a value of its type, or a guard fails; it is
  never stuck (`HasType.safe`).
-/

namespace IcLir

open Definition Typing TypeTable

/-- What is of a type: an object of the class or a subclass, or an array of exactly this type. -/
def Item.IsA (types : TypeTable) (type : TypeId) : Item → Prop
  | .object owner _ => types.isSubtype owner type = true
  | .array type' _ => type' = type

namespace State

/-- The value is of the type; null is, where null may stand. -/
def Admits (σ : State) (types : TypeTable) (type : TypeId) : Value → Prop
  | .int _ => type = TypeId.int
  | .bool _ => type = TypeId.boolean
  | .string _ => type = TypeId.string
  | .null => types.isSubtype TypeId.null type = true
  | .void _ => type = TypeId.void
  | .ref a => ∃ item, σ.heap a = some item ∧ item.IsA types type

/-- The fields of every object and the elements of every array are of their types. -/
structure HeapFits (σ : State) (c : Context) : Prop where
  isClass {a : Nat} {owner : TypeId} {field : String → Value} :
    σ.heap a = some (.object owner field) → c.types.isClass owner = true
  field {a : Nat} {owner : TypeId} {field : String → Value} {scope : ScopeId} {name : String}
    {s : Symbol} : σ.heap a = some (.object owner field) →
    c.scopes.classScopes.get? owner = some scope → c.scopes.lookupMember scope name = some s →
    s.kind = .field → σ.Admits c.types s.type (field name)
  array {a : Nat} {type : TypeId} {values : List Value} :
    σ.heap a = some (.array type values) →
    ∃ element, c.types.element? type = some element ∧ ∀ v ∈ values, σ.Admits c.types element v

/-- The value is an object of the class or of a subclass. -/
def IsObjectOf (σ : State) (types : TypeTable) (type : TypeId) (v : Value) : Prop :=
  ∃ a owner field, v = .ref a ∧ σ.heap a = some (.object owner field) ∧
    types.isSubtype owner type = true

end State

/-- The state is one that `e` may be evaluated in, in a method of class `type`. -/
structure State.Fits (σ : State) (c : Context) (type : TypeId) (isStatic : Bool) (e : Expr) :
    Prop extends σ.HeapFits c where
  receiver : isStatic = false → σ.IsObjectOf c.types type σ.receiver
  var {scope : ScopeId} {name : String} {s : Symbol} : e.Reads c scope name →
    (c.scopes.scope scope).get? name = some s → σ.Admits c.types s.type (σ.var scope name)

theorem State.Fits.mono {σ : State} {c : Context} {type : TypeId} {isStatic : Bool} {e x : Expr}
    (h : σ.Fits c type isStatic e) (hx : x.nodes ⊆ e.nodes) : σ.Fits c type isStatic x where
  toHeapFits := h.toHeapFits
  receiver := h.receiver
  var hr := h.var (hr.mono hx)

/-! ## Values of a type -/

theorem Primitive.id_inj {q q' : Primitive} (h : q.id = q'.id) : q = q' := by
  cases q <;> cases q' <;> first | rfl | exact absurd h (by decide)

/-- The values of a primitive type. -/
def Primitive.Holds : Primitive → Value → Prop
  | .int, v => ∃ n, v = .int n
  | .boolean, v => ∃ b, v = .bool b
  | .null, v => v = .null
  | .string, v => v = .null ∨ ∃ s, v = .string s
  | .void, v => ∃ w, v = .void w

namespace State.HeapFits

variable {σ : State} {c : Context} {p : Program} {type element : TypeId} {v : Value}

/-- A reference is of a class type or an array type. -/
theorem not_admits_ref (h : σ.HeapFits c) (ht : ClassTable p.classes c.types) (q : Primitive)
    (a : Nat) : ¬ σ.Admits c.types q.id (.ref a) := by
  rintro ⟨item, hitem, hv⟩
  cases item with
  | object owner field =>
    exact ht.ne_primitive_of_isClass (ht.isClass_of_isSubtype (h.isClass hitem) hv) q rfl
  | array type' values =>
    obtain ⟨element, he, _⟩ := h.array hitem
    exact ht.ne_primitive_of_element? he q hv

theorem holds_of_admits (h : σ.HeapFits c) (ht : ClassTable p.classes c.types) {q : Primitive}
    (hv : σ.Admits c.types q.id v) : q.Holds v := by
  cases v with
  | ref a => exact absurd hv (h.not_admits_ref ht q a)
  | int n =>
    obtain rfl : q = .int := Primitive.id_inj hv
    exact ⟨n, rfl⟩
  | bool b =>
    obtain rfl : q = .boolean := Primitive.id_inj hv
    exact ⟨b, rfl⟩
  | string s =>
    obtain rfl : q = .string := Primitive.id_inj hv
    exact .inr ⟨s, rfl⟩
  | void w =>
    obtain rfl : q = .void := Primitive.id_inj hv
    exact ⟨w, rfl⟩
  | null =>
    cases q with
    | null => rfl
    | string => exact .inl rfl
    | int | boolean | void => exact absurd hv Bool.false_ne_true

/-- A value of a class type is null or an object. -/
theorem null_or_object (h : σ.HeapFits c) (ht : ClassTable p.classes c.types)
    (hc : c.types.isClass type = true) (hv : σ.Admits c.types type v) :
    v = .null ∨ σ.IsObjectOf c.types type v := by
  have hprimitive := ht.ne_primitive_of_isClass hc
  cases v with
  | null => exact .inl rfl
  | int n => exact absurd hv (hprimitive .int)
  | bool b => exact absurd hv (hprimitive .boolean)
  | string s => exact absurd hv (hprimitive .string)
  | void w => exact absurd hv (hprimitive .void)
  | ref a =>
    obtain ⟨item, hitem, hv⟩ := hv
    cases item with
    | object owner field => exact .inr ⟨a, owner, field, rfl, hitem, hv⟩
    | array type' values =>
      obtain ⟨element, he, _⟩ := h.array hitem
      obtain rfl : type' = type := hv
      rw [ClassTable.not_isClass_of_element? he] at hc
      simp at hc

/-- A value of an array type is null or an array. -/
theorem null_or_array (h : σ.HeapFits c) (ht : ClassTable p.classes c.types)
    (he : c.types.element? type = some element) (hv : σ.Admits c.types type v) :
    v = .null ∨ ∃ a values, v = .ref a ∧ σ.heap a = some (.array type values) ∧
      ∀ w ∈ values, σ.Admits c.types element w := by
  have hprimitive := ht.ne_primitive_of_element? he
  cases v with
  | null => exact .inl rfl
  | int n => exact absurd hv (hprimitive .int)
  | bool b => exact absurd hv (hprimitive .boolean)
  | string s => exact absurd hv (hprimitive .string)
  | void w => exact absurd hv (hprimitive .void)
  | ref a =>
    obtain ⟨item, hitem, hv⟩ := hv
    cases item with
    | object owner field =>
      have hclass := ht.isClass_of_isSubtype (h.isClass hitem) hv
      rw [ClassTable.not_isClass_of_element? he] at hclass
      simp at hclass
    | array type' values =>
      obtain rfl : type' = type := hv
      obtain ⟨element', he', hvalues⟩ := h.array hitem
      obtain rfl : element' = element := Option.some.inj (he'.symm.trans he)
      exact .inr ⟨a, values, rfl, hitem, hvalues⟩

theorem isReference_of_admits (hint : type ≠ TypeId.int) (hbool : type ≠ TypeId.boolean)
    (hvoid : type ≠ TypeId.void) (hv : σ.Admits c.types type v) : v.isReference = true := by
  cases v with
  | string s | null | ref a => rfl
  | int n => exact absurd hv hint
  | bool b => exact absurd hv hbool
  | void w => exact absurd hv hvoid

end State.HeapFits

/-! ## Soundness -/

/-- The outcome is a value of the type, or a guard has failed. -/
def State.Safe (σ : State) (types : TypeTable) (type : TypeId) : Outcome Value → Prop
  | .ok v => σ.Admits types type v
  | .error (.guard _) => True
  | .error .stuck => False

section

variable {σ : State} {c : Context} {p : Program} {type type' result : TypeId}

variable {v w : Value}

theorem State.Safe.bind {x : Outcome Value} {f : Value → Outcome Value}
    (hx : σ.Safe c.types type x)
    (hf : ∀ v, σ.Admits c.types type v → σ.Safe c.types type' (f v)) :
    σ.Safe c.types type' (x >>= f) := by
  cases x with
  | ok v => exact hf v hx
  | error fault =>
    cases fault with
    | guard g => trivial
    | stuck => exact hx.elim

/-- A value that is null or leads somewhere ends the evaluation at null. -/
theorem State.Safe.address {f : Nat → Outcome Value}
    (hv : v = .null ∨ ∃ a, v = .ref a ∧ σ.Safe c.types type (f a)) :
    σ.Safe c.types type (v.address >>= f) := by
  rcases hv with rfl | ⟨a, rfl, hf⟩
  · trivial
  · exact hf

theorem CompareOp.exists_apply {op : CompareOp} (hop : op.isEquality = true)
    (h : v.isBool = true ∧ w.isBool = true ∨ v.isReference = true ∧ w.isReference = true) :
    ∃ b, op.apply v w = .ok (.bool b) := by
  have hsame : (v.isBool && w.isBool || v.isReference && w.isReference) = true := by
    simpa using h
  have hnot : ∀ n, v ≠ .int n := by
    intro n hv
    subst hv
    simp [Value.isBool, Value.isReference] at h
  cases op with
  | eq | ne =>
    unfold CompareOp.apply
    split
    · exact absurd rfl (hnot _)
    · rw [if_pos hsame]
      exact ⟨_, rfl⟩
  | lt | le | gt | ge => simp [CompareOp.isEquality] at hop

theorem State.HeapFits.safe_compare (h : σ.HeapFits c) (ht : ClassTable p.classes c.types)
    {op : CompareOp} (hrule : BinaryRule c.types (.compare op) type type' result)
    (hv : σ.Admits c.types type v) (hw : σ.Admits c.types type' w) :
    σ.Safe c.types result (op.apply v w) := by
  obtain ⟨rfl, hrule⟩ := hrule
  have hints : type = TypeId.int → type' = TypeId.int →
      σ.Safe c.types TypeId.boolean (op.apply v w) := by
    rintro rfl rfl
    obtain ⟨n, rfl⟩ := h.holds_of_admits ht (q := .int) hv
    obtain ⟨n', rfl⟩ := h.holds_of_admits ht (q := .int) hw
    exact rfl
  split at hrule
  · next hop =>
    obtain ⟨hvoid, hvoid', hrelated⟩ := hrule
    -- related types are both `int`, both `boolean`, or neither
    have hswap := hrelated.symm
    by_cases hint : type = TypeId.int
    · rw [hint] at hswap
      exact hints hint (ht.eq_of_isSubtype_primitive (q := .int) rfl hswap)
    by_cases hint' : type' = TypeId.int
    · rw [hint'] at hrelated
      exact absurd (ht.eq_of_isSubtype_primitive (q := .int) rfl hrelated) hint
    have hsort : v.isBool = true ∧ w.isBool = true ∨
        v.isReference = true ∧ w.isReference = true := by
      by_cases hbool : type = TypeId.boolean
      · rw [hbool] at hswap hv
        rw [ht.eq_of_isSubtype_primitive (q := .boolean) rfl hswap] at hw
        obtain ⟨b, rfl⟩ := h.holds_of_admits ht (q := .boolean) hv
        obtain ⟨b', rfl⟩ := h.holds_of_admits ht (q := .boolean) hw
        exact .inl ⟨rfl, rfl⟩
      · have hbool' : type' ≠ TypeId.boolean := by
          intro hbool'
          rw [hbool'] at hrelated
          exact hbool (ht.eq_of_isSubtype_primitive (q := .boolean) rfl hrelated)
        exact .inr ⟨isReference_of_admits hint hbool hvoid hv,
          isReference_of_admits hint' hbool' hvoid' hw⟩
    obtain ⟨b, hb⟩ := CompareOp.exists_apply hop hsort
    rw [hb]
    exact rfl
  · exact hints hrule.1 hrule.2

theorem State.HeapFits.safe_arith (h : σ.HeapFits c) (ht : ClassTable p.classes c.types)
    (P : Platform) {op : ArithOp} (hv : σ.Admits c.types TypeId.int v)
    (hw : σ.Admits c.types TypeId.int w) : σ.Safe c.types TypeId.int (op.apply P v w) := by
  obtain ⟨n, rfl⟩ := h.holds_of_admits ht (q := .int) hv
  obtain ⟨n', rfl⟩ := h.holds_of_admits ht (q := .int) hw
  unfold ArithOp.apply
  dsimp only
  split
  · trivial
  · exact rfl

theorem State.HeapFits.safe_join (h : σ.HeapFits c) (ht : ClassTable p.classes c.types)
    (P : Platform) (hv : σ.Admits c.types TypeId.string v) (hw : σ.Admits c.types TypeId.string w) :
    σ.Safe c.types TypeId.string (v.join P w) := by
  have htext : ∀ {u : Value}, σ.Admits c.types TypeId.string u → ∃ s, u.text P = .ok s := by
    intro u hu
    rcases h.holds_of_admits ht (q := .string) hu with rfl | ⟨s, rfl⟩
    · exact ⟨_, rfl⟩
    · exact ⟨s, rfl⟩
  obtain ⟨s, hs⟩ := htext hv
  obtain ⟨s', hs'⟩ := htext hw
  rw [Value.join, hs, hs']
  exact rfl

/-- The type of the left operand decides what an addition does. -/
theorem State.HeapFits.safe_joins (h : σ.HeapFits c) (ht : ClassTable p.classes c.types)
    (P : Platform) {op : ArithOp} {left : Expr} (htype : c.exprTypes.get? left.id = some type)
    (hkind : type = TypeId.int ∨ op = .add ∧ type = TypeId.string) (hv : σ.Admits c.types type v)
    (hw : σ.Admits c.types type w) :
    σ.Safe c.types type (if c.joins op left then v.join P w else op.apply P v w) := by
  rcases hkind with rfl | ⟨rfl, rfl⟩
  · have hjoins : c.joins op left = false := by
      rw [Context.joins, htype]
      cases op <;> rfl
    rw [hjoins]
    exact h.safe_arith ht P hv hw
  · have hjoins : c.joins .add left = true := by
      rw [Context.joins, htype]
      rfl
    rw [hjoins]
    exact h.safe_join ht P hv hw

theorem State.HeapFits.safe_logic (h : σ.HeapFits c) (ht : ClassTable p.classes c.types)
    {op : LogicOp} {x y : Outcome Value} (hx : σ.Safe c.types TypeId.boolean x)
    (hy : σ.Safe c.types TypeId.boolean y) : σ.Safe c.types TypeId.boolean (op.apply x y) := by
  refine hx.bind fun v hv => ?_
  obtain ⟨b, rfl⟩ := h.holds_of_admits ht (q := .boolean) hv
  change σ.Safe c.types TypeId.boolean (if b = op.settledBy then pure (.bool b) else _)
  split
  · exact rfl
  · refine hy.bind fun w hw => ?_
    obtain ⟨b', rfl⟩ := h.holds_of_admits ht (q := .boolean) hw
    exact rfl

theorem State.HeapFits.safe_unary (h : σ.HeapFits c) (ht : ClassTable p.classes c.types)
    (P : Platform) {op : UnaryOp} (hv : σ.Admits c.types (unaryType op) v) :
    σ.Safe c.types (unaryType op) (op.apply P v) := by
  cases op with
  | neg =>
    obtain ⟨n, rfl⟩ := h.holds_of_admits ht (q := .int) hv
    exact rfl
  | not =>
    obtain ⟨b, rfl⟩ := h.holds_of_admits ht (q := .boolean) hv
    exact rfl

/-- An object has the fields of the classes above it. -/
theorem State.HeapFits.safe_field (h : σ.HeapFits c) (hd : Defined p c.definition) {i : Nat}
    {k : ClassDecl} {scope parent : ScopeId} (hc : ClassOf c.definition k (classId i) scope parent)
    {name : String} {s : Symbol} (hs : c.scopes.lookupMember scope name = some s)
    (hk : s.kind = .field) (hv : σ.IsObjectOf c.types (classId i) v) :
    ∃ a, v = .ref a ∧ σ.Safe c.types s.type (σ.field a name) := by
  obtain ⟨a, owner, field, rfl, hitem, hsub⟩ := hv
  obtain ⟨j, k', hj, rfl⟩ := hd.table.isClass owner (h.isClass hitem)
  obtain ⟨scope', parent', hc'⟩ := hd.classOf j k' hj
  have hs' := lookupMember_field_of_isSubtype hd hc hj hc' hsub hs hk
  refine ⟨a, rfl, ?_⟩
  rw [State.field, hitem]
  exact h.field hitem hc'.get? hs' hk

theorem State.safe_element {a : Nat} {values : List Value}
    (hitem : σ.heap a = some (.array type values))
    (hvalues : ∀ w ∈ values, σ.Admits c.types type' w) (i : Int) :
    σ.Safe c.types type' (σ.element a (.int i)) := by
  rw [State.element_int hitem]
  split
  · next hi =>
    have hlt : i.toNat < values.length := by omega
    rw [List.getD_eq_getElem?_getD, List.getElem?_eq_getElem hlt]
    exact hvalues _ (List.getElem_mem hlt)
  · trivial

end

theorem TypeTable.exists_element?_of_isArray {t : TypeTable} {type : TypeId}
    (h : t.isArray type = true) : ∃ element, t.element? type = some element := by
  unfold isArray at h
  unfold element?
  cases hk : t.kind? type with
  | none => rw [hk] at h; simp at h
  | some kind => rw [hk] at h; cases kind <;> simp_all [TypeKind.isArray]

/-- An expression of a method that was checked in `env`. -/
theorem Typing.HasType.safe {σ : State} {c : Context} {p : Program} {env : MethodEnv}
    (hin : ChecksIn env p c.definition) (P : Platform) {e : Expr} {type : TypeId}
    (h : HasType c.typing env e type) (hplain : e.IsPlain)
    (hfits : σ.Fits c env.type env.isStatic e) : σ.Safe c.types type (e.eval c P σ) := by
  have ht := hin.defined.table
  have hself := hplain e e.mem_nodes
  match h with
  | @HasType.literal _ _ _ value _ => cases value <;> exact rfl
  | @HasType.var _ _ node name s hget _ href _ =>
    have hread : (Expr.var node name).Reads c s.scope name.name :=
      ⟨node, name, Expr.mem_nodes _, rfl, href⟩
    have href' : c.references.get? node.id = some (.variable s.scope) := href
    rw [hin.scopes] at hget
    rw [Expr.eval, href']
    exact hfits.var hread hget
  | @HasType.ownField _ _ node name s hstatic hm hk href _ =>
    obtain ⟨i, k, parent, _, htype, hc⟩ := hin.classOf
    have href' : c.references.get? node.id = some (.field s.scope) := href
    rw [hin.scopes] at hm
    obtain ⟨a, ha, hsafe⟩ :=
      hfits.safe_field hin.defined hc hm hk (htype ▸ hfits.receiver hstatic)
    rw [Expr.eval, href', State.ownField, ha]
    exact hsafe
  | @HasType.field _ _ node object name owner scope s hobject hclass hscope hm hk _ =>
    obtain ⟨i, k, hi, rfl⟩ := ht.isClass owner hclass
    obtain ⟨scope', parent, hc⟩ := hin.defined.classOf i k hi
    rw [hin.scopes] at hscope hm
    obtain rfl : scope' = scope := Option.some.inj (hc.get?.symm.trans hscope)
    have hsub := Expr.nodes_subset_field node object name
    refine (hobject.safe hin P (hplain.mono hsub) (hfits.mono hsub)).bind fun v hv => ?_
    refine .address ((hfits.null_or_object ht hclass hv).imp id fun hv => ?_)
    exact hfits.safe_field hin.defined hc hm hk hv
  | @HasType.index _ _ node array i arrayType element harray he hi _ =>
    have hleft := Expr.nodes_subset_index_left node array i
    have hright := Expr.nodes_subset_index_right node array i
    refine (harray.safe hin P (hplain.mono hleft) (hfits.mono hleft)).bind fun v hv => ?_
    refine .address ((hfits.null_or_array ht he hv).imp id ?_)
    rintro ⟨a, values, rfl, hitem, hvalues⟩
    refine ⟨a, rfl, ?_⟩
    refine (hi.safe hin P (hplain.mono hright) (hfits.mono hright)).bind fun w hw => ?_
    obtain ⟨n, rfl⟩ := hfits.holds_of_admits ht (q := .int) hw
    exact State.safe_element hitem hvalues n
  | @HasType.length _ _ node array arrayType harray hisArray _ =>
    have hsub := Expr.nodes_subset_length node array
    refine (harray.safe hin P (hplain.mono hsub) (hfits.mono hsub)).bind fun v hv => ?_
    obtain ⟨element, he⟩ := exists_element?_of_isArray hisArray
    refine .address ((hfits.null_or_array ht he hv).imp id ?_)
    rintro ⟨a, values, rfl, hitem, _⟩
    refine ⟨a, rfl, ?_⟩
    rw [State.values, hitem]
    exact rfl
  | @HasType.binary _ _ node op left right leftType rightType _ hl hr hrule _ =>
    have hleft := Expr.nodes_subset_binary_left node left right op
    have hright := Expr.nodes_subset_binary_right node left right op
    have hx := hl.safe hin P (hplain.mono hleft) (hfits.mono hleft)
    have hy := hr.safe hin P (hplain.mono hright) (hfits.mono hright)
    cases op with
    | logic op =>
      obtain ⟨rfl, rfl, rfl⟩ := hrule
      exact hfits.safe_logic ht hx hy
    | compare op => exact hx.bind fun v hv => hy.bind fun w hw => hfits.safe_compare ht hrule hv hw
    | arith op =>
      obtain ⟨rfl, rfl, hkind⟩ := hrule
      exact hx.bind fun v hv => hy.bind fun w hw => hfits.safe_joins ht P hl.recorded hkind hv hw
  | @HasType.unary _ _ node op operand hoperand _ =>
    have hsub := Expr.nodes_subset_unary node operand op
    refine (hoperand.safe hin P (hplain.mono hsub) (hfits.mono hsub)).bind fun v hv => ?_
    exact hfits.safe_unary ht P hv
  | @HasType.paren _ _ node inner _ hinner _ =>
    have hsub := Expr.nodes_subset_paren node inner
    exact hinner.safe hin P (hplain.mono hsub) (hfits.mono hsub)
  | .this hstatic _ =>
    obtain ⟨a, owner, field, hv, hitem, hsub⟩ := hfits.receiver hstatic
    rw [Expr.eval, hv]
    exact ⟨_, hitem, hsub⟩
  | .staticCall .. | .ownCall .. | .methodCall .. => simp [Expr.isCall] at hself
  | .newObject .. | .newArray .. => simp [Expr.isAllocation] at hself

end IcLir
