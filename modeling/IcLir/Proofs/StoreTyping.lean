import IcLir.Proofs.Interpreter
import IcLir.Proofs.TypeSoundness

/-
  Well-typed stores. Every variable of the method, every field of an object and every element of
  an array holds a value of its type (`Store.WellTyped`). Items keep their types from the moment
  they are allocated (`Store.Later`), so a value keeps its type while others are computed and
  assigned. Giving a place a value of its type keeps the store well typed.
-/

namespace IcLir

open Definition TypeTable

/-- The scopes of a method: its own, and those of the blocks and branches in it. -/
def Context.IsScopeOf (c : Context) (m : MethodDecl) (scope : ScopeId) : Prop :=
  c.scopes.methodScopes.get? m.id = some scope ∨
    ∃ s ∈ Stmt.nodesOfList m.body, c.scopes.blockScopes.get? s.id = some scope

namespace State

variable {σ : State} {a : Nat} {type : TypeId}

theorem self_ref (h : σ.receiver = .ref a) : σ.self = .ok a := by
  rw [self, h]

theorem values_array {values : List Value} (h : σ.heap a = some (.array type values)) :
    σ.values a = .ok values := by
  rw [State.values, h]

end State

/-- The items have one type; what they hold may differ. -/
def Item.Replaces : Item → Item → Prop
  | .object type _, .object type' _ => type = type'
  | .array type _, .array type' _ => type = type'
  | _, _ => False

theorem Item.Replaces.refl (item : Item) : item.Replaces item := by
  cases item <;> rfl

theorem Item.Replaces.isA {item item' : Item} {types : TypeTable} {type : TypeId}
    (h : item'.Replaces item) (ha : item.IsA types type) : item'.IsA types type := by
  cases item <;> cases item' <;> first | exact h.elim | exact (h ▸ ha)

namespace Store

/-- The value is of the type, and the one of its type if that is void. -/
def Admits (σ : Store) (types : TypeTable) (type : TypeId) (v : Value) : Prop :=
  σ.state.Admits types type v ∧ (type = TypeId.void → v = .unit)

/-- What an item holds is of the types that it should be. -/
def ItemFits (σ : Store) (c : Context) : Item → Prop
  | .object owner field => c.types.isClass owner = true ∧
    ∀ l, c.layouts.get? owner = some l → ∀ name n, l.offset? name = some n →
      ∃ type, c.memberType? owner name = some type ∧ σ.Admits c.types type (field name)
  | .array type values => ∃ element, c.types.element? type = some element ∧
    ∀ v ∈ values, σ.Admits c.types element v

/-- The store is one that method `m` of class `type` may be run in. -/
structure WellTyped (σ : Store) (c : Context) (type : TypeId) (m : MethodDecl) : Prop where
  var : ∀ scope name s, c.IsScopeOf m scope → (c.scopes.scope scope).get? name = some s →
    σ.Admits c.types s.type (σ.var scope name)
  receiver : m.isStatic = false → σ.state.IsObjectOf c.types type σ.receiver
  item : ∀ item ∈ σ.items, σ.ItemFits c item

/-- The object at `a` has a field `name` of the given type. -/
structure FieldAt (σ : Store) (c : Context) (a : Nat) (name : String) (type owner : TypeId)
    (field : String → Value) : Prop where
  item : σ.items[a]? = some (.object owner field)
  hasField : c.hasField owner name = true
  memberType? : c.memberType? owner name = some type
  admits : σ.Admits c.types type (field name)

/-- The items of `σ` are still there in `σ'`. -/
def Later (σ σ' : Store) : Prop :=
  ∀ (a : Nat) (item : Item), σ.items[a]? = some item →
    ∃ item' : Item, σ'.items[a]? = some item' ∧ item'.Replaces item

variable {σ σ' σ'' : Store} {c : Context} {types : TypeTable} {type type' : TypeId} {v : Value}
  {m : MethodDecl} {p : Program}

/-! ## Values keep their types -/

namespace Later

theorem refl (σ : Store) : σ.Later σ := fun _ item h => ⟨item, h, .refl item⟩

theorem trans (h : σ.Later σ') (h' : σ'.Later σ'') : σ.Later σ'' := by
  intro a item ha
  obtain ⟨item', ha', hr⟩ := h a item ha
  obtain ⟨item'', ha'', hr'⟩ := h' a item' ha'
  refine ⟨item'', ha'', ?_⟩
  cases item <;> cases item' <;> cases item'' <;>
    first | exact hr.elim | exact hr'.elim | exact Eq.trans hr' hr

theorem admits (h : σ.Later σ') (hv : σ.Admits types type v) : σ'.Admits types type v := by
  refine ⟨?_, hv.2⟩
  cases v with
  | ref a =>
    obtain ⟨item, hitem, ha⟩ := hv.1
    obtain ⟨item', hitem', hr⟩ := h a item hitem
    exact ⟨item', hitem', hr.isA ha⟩
  | int | bool | string | null | void => exact hv.1

theorem isObjectOf (h : σ.Later σ') (hv : σ.state.IsObjectOf types type v) :
    σ'.state.IsObjectOf types type v := by
  obtain ⟨a, owner, field, rfl, hitem, hsub⟩ := hv
  obtain ⟨item', hitem', hr⟩ := h a _ hitem
  cases item' with
  | object owner' field' => exact ⟨a, owner', field', rfl, hitem', hr ▸ hsub⟩
  | array => exact hr.elim

theorem array (h : σ.Later σ') {a : Nat} {values : List Value}
    (ha : σ.items[a]? = some (.array type values)) :
    ∃ values', σ'.items[a]? = some (.array type values') := by
  obtain ⟨item', ha', hr⟩ := h a _ ha
  cases item' with
  | object => exact hr.elim
  | array type' values' =>
    obtain rfl : type' = type := hr
    exact ⟨values', ha'⟩

theorem itemFits (h : σ.Later σ') {item : Item} (hi : σ.ItemFits c item) : σ'.ItemFits c item := by
  cases item with
  | object owner field =>
    refine ⟨hi.1, fun l hl name n hn => ?_⟩
    obtain ⟨type, htype, hv⟩ := hi.2 l hl name n hn
    exact ⟨type, htype, h.admits hv⟩
  | array type values =>
    obtain ⟨element, he, hvalues⟩ := hi
    exact ⟨element, he, fun v hv => h.admits (hvalues v hv)⟩

end Later

/-- What a place holds at first is of its type. -/
theorem admits_initial (σ : Store) (types : TypeTable) (type : TypeId) :
    σ.Admits types type (.initial type) := by
  unfold Value.initial
  split
  · next h => exact ⟨h, fun hvoid => absurd (h.symm.trans hvoid) (by decide)⟩
  · next hint =>
    split
    · next h => exact ⟨h, fun hvoid => absurd (h.symm.trans hvoid) (by decide)⟩
    · next hbool =>
      split
      · next h => exact ⟨h, fun _ => rfl⟩
      · next hvoid =>
        refine ⟨?_, fun h => absurd h hvoid⟩
        change types.isSubtype TypeId.null type = true
        unfold isSubtype
        split
        · rfl
        · simp [hint, hbool, hvoid]

theorem admits_of_ne_void (h : σ.state.Admits types type v) (hne : type ≠ TypeId.void) :
    σ.Admits types type v := ⟨h, fun hvoid => absurd hvoid hne⟩

/-! ## Changes that keep a store well typed -/

/-- A store that comes later is well typed if what is new in it is. -/
theorem WellTyped.change (h : σ.WellTyped c type m) (hlater : σ.Later σ')
    (hreceiver : σ'.receiver = σ.receiver)
    (hvar : ∀ scope name s, c.IsScopeOf m scope → (c.scopes.scope scope).get? name = some s →
      σ'.var scope name = σ.var scope name ∨ σ'.Admits c.types s.type (σ'.var scope name))
    (hitem : ∀ item ∈ σ'.items, item ∈ σ.items ∨ σ'.ItemFits c item) :
    σ'.WellTyped c type m where
  var scope name s hscope hs := by
    rcases hvar scope name s hscope hs with heq | hnew
    · rw [heq]
      exact hlater.admits (h.var scope name s hscope hs)
    · exact hnew
  receiver hstatic := by
    rw [hreceiver]
    exact hlater.isObjectOf (h.receiver hstatic)
  item item hmem := by
    rcases hitem item hmem with hold | hnew
    · exact hlater.itemFits (h.item item hold)
    · exact hnew

theorem later_setVar (σ : Store) (scope : ScopeId) (name : String) (v : Value) :
    σ.Later (σ.setVar scope name v) := fun _ item h => ⟨item, h, .refl item⟩

theorem WellTyped.setVar (h : σ.WellTyped c type m) {scope : ScopeId} {name : String} {s : Symbol}
    (hs : (c.scopes.scope scope).get? name = some s) (hv : σ.Admits c.types s.type v) :
    (σ.setVar scope name v).WellTyped c type m := by
  have hlater := later_setVar σ scope name v
  refine h.change hlater rfl ?_ fun item hmem => .inl hmem
  intro scope' name' s' _ hs'
  unfold Store.setVar
  dsimp only
  split
  · next heq =>
    obtain ⟨rfl, rfl⟩ := heq
    obtain rfl : s = s' := Option.some.inj (hs.symm.trans hs')
    exact .inr (hlater.admits hv)
  · exact .inl rfl

theorem later_push (σ : Store) (item : Item) : σ.Later (σ.push item) := by
  intro a item' ha
  have hlt : a < σ.items.length := (List.getElem?_eq_some_iff.mp ha).1
  exact ⟨item', (List.getElem?_append_left hlt).trans ha, .refl item'⟩

theorem WellTyped.push (h : σ.WellTyped c type m) {item : Item} (hi : σ.ItemFits c item) :
    (σ.push item).WellTyped c type m := by
  have hlater := later_push σ item
  refine h.change hlater rfl (fun _ _ _ _ _ => .inl rfl) fun item' hmem => ?_
  rcases List.mem_append.mp hmem with hold | hnew
  · exact .inl hold
  · rw [List.mem_singleton.mp hnew]
    exact .inr (hlater.itemFits hi)

theorem later_setItem {a : Nat} {item item' : Item} (ha : σ.items[a]? = some item)
    (hr : item'.Replaces item) : σ.Later (σ.setItem a item') := by
  intro b other hb
  by_cases hab : a = b
  · subst hab
    obtain rfl : item = other := Option.some.inj (ha.symm.trans hb)
    have hlt : a < σ.items.length := (List.getElem?_eq_some_iff.mp ha).1
    exact ⟨item', List.getElem?_set_self hlt, hr⟩
  · exact ⟨other, (List.getElem?_set_ne hab).trans hb, .refl other⟩

theorem WellTyped.setItem (h : σ.WellTyped c type m) {a : Nat} {item item' : Item}
    (ha : σ.items[a]? = some item) (hr : item'.Replaces item) (hi : σ.ItemFits c item') :
    (σ.setItem a item').WellTyped c type m := by
  have hlater := later_setItem ha hr
  refine h.change hlater rfl (fun _ _ _ _ _ => .inl rfl) fun other hmem => ?_
  rcases List.mem_or_eq_of_mem_set hmem with hold | rfl
  · exact .inl hold
  · exact .inr (hlater.itemFits hi)

/-! ## What a well-typed store holds -/

namespace WellTyped

theorem field (h : σ.WellTyped c type m) (hc : c.Accepts p) {a : Nat} {owner : TypeId}
    {field : String → Value} (hitem : σ.items[a]? = some (.object owner field)) {scope : ScopeId}
    (hscope : c.scopes.classScopes.get? owner = some scope) {name : String} {s : Symbol}
    (hs : c.scopes.lookupMember scope name = some s) (hk : s.kind = .field) :
    σ.FieldAt c a name s.type owner field := by
  have hfits := h.item _ (List.mem_of_getElem? hitem)
  obtain ⟨i, k, hi, rfl⟩ := hc.defined.table.isClass owner hfits.1
  obtain ⟨scope', parent, hclass⟩ := hc.defined.classOf i k hi
  obtain rfl : scope' = scope := Option.some.inj (hclass.get?.symm.trans hscope)
  obtain ⟨l, hl, hlayout, _⟩ := hc.laidOut i k scope' parent (List.getElem?_eq_some_iff.mp hi).1 hi
    hclass.toClassDefined
  obtain ⟨n, hn⟩ := hlayout.lays.field name s hs hk
  obtain ⟨type', htype, hv⟩ := hfits.2 l hl name n hn
  have hmember := Context.memberType?_eq hscope hs
  obtain rfl : type' = s.type := Option.some.inj (htype.symm.trans hmember)
  refine ⟨hitem, ?_, hmember, hv⟩
  rw [Context.hasField, hl, Option.bind_some, hn]
  rfl

theorem array (h : σ.WellTyped c type m) {a : Nat} {values : List Value} {element : TypeId}
    (hitem : σ.items[a]? = some (.array type' values))
    (he : c.types.element? type' = some element) : ∀ v ∈ values, σ.Admits c.types element v := by
  obtain ⟨element', he', hvalues⟩ := h.item _ (List.mem_of_getElem? hitem)
  obtain rfl : element' = element := Option.some.inj (he'.symm.trans he)
  exact hvalues

theorem heapFits (h : σ.WellTyped c type m) (hc : c.Accepts p) : σ.state.HeapFits c where
  isClass hitem := (h.item _ (List.mem_of_getElem? hitem)).1
  field hitem hscope hs hk := (h.field hc hitem hscope hs hk).admits.1
  array hitem := by
    obtain ⟨element, he, hvalues⟩ := h.item _ (List.mem_of_getElem? hitem)
    exact ⟨element, he, fun v hv => (hvalues v hv).1⟩

/-- A value may stand where a supertype of its type is expected. -/
theorem upcast (h : σ.WellTyped c type m) (hc : c.Accepts p) {actual expected : TypeId}
    (hv : σ.Admits c.types actual v) (hsub : c.types.isSubtype actual expected = true) :
    σ.Admits c.types expected v := by
  have ht := hc.defined.table
  have hprimitive : ∀ q : Primitive, q ≠ .null → actual = q.id → expected = q.id := by
    intro q hq heq
    subst heq
    exact ClassTable.eq_of_isSubtype_of_not_isClass (fun hnull => hq (Primitive.id_inj hnull))
      (ht.isClass_primitive q) hsub
  constructor
  · cases v with
    | int n => exact hprimitive .int (by simp) hv.1
    | bool b => exact hprimitive .boolean (by simp) hv.1
    | string s => exact hprimitive .string (by simp) hv.1
    | void w => exact hprimitive .void (by simp) hv.1
    | null => exact ht.isSubtype_trans hv.1 hsub
    | ref a =>
      obtain ⟨item, hitem, ha⟩ := hv.1
      refine ⟨item, hitem, ?_⟩
      cases item with
      | object owner field => exact ht.isSubtype_trans ha hsub
      | array type' values =>
        obtain ⟨element, he, _⟩ := h.item _ (List.mem_of_getElem? hitem)
        obtain rfl : type' = actual := ha
        exact (ClassTable.eq_of_isSubtype_of_not_isClass (ht.ne_primitive_of_element? he .null)
          (ClassTable.not_isClass_of_element? he) hsub).symm
  · intro hvoid
    subst hvoid
    exact hv.2 (ht.eq_of_isSubtype_primitive (q := .void) rfl (.inl hsub))

/-- An object has the fields of the classes above its own. -/
theorem exists_field (h : σ.WellTyped c type m) (hc : c.Accepts p) {i : Nat} {k : ClassDecl}
    {scope parent : ScopeId} (hclass : ClassOf c.definition k (classId i) scope parent)
    {name : String} {s : Symbol} (hs : c.scopes.lookupMember scope name = some s)
    (hk : s.kind = .field) (hv : σ.state.IsObjectOf c.types (classId i) v) :
    ∃ a owner field, v = .ref a ∧ σ.FieldAt c a name s.type owner field := by
  obtain ⟨a, owner, field, rfl, hitem, hsub⟩ := hv
  obtain ⟨j, k', hj, rfl⟩ :=
    hc.defined.table.isClass owner (h.item _ (List.mem_of_getElem? hitem)).1
  obtain ⟨scope', parent', hclass'⟩ := hc.defined.classOf j k' hj
  have hs' := lookupMember_field_of_isSubtype hc.defined hclass hj hclass' hsub hs hk
  exact ⟨a, classId j, field, rfl, h.field hc hitem hclass'.get? hs' hk⟩

/-! ## Assigning to fields and elements -/

theorem setField (h : σ.WellTyped c type m) {a : Nat} {owner : TypeId} {field : String → Value}
    {name : String} (hf : σ.FieldAt c a name type' owner field) (hv : σ.Admits c.types type' v) :
    (σ.setItem a (.object owner fun name' => if name' = name then v else field name')).WellTyped
      c type m := by
  obtain ⟨hclass, hfields⟩ := h.item _ (List.mem_of_getElem? hf.item)
  refine h.setItem hf.item rfl ⟨hclass, fun l hl name' n hn => ?_⟩
  dsimp only
  by_cases hname : name' = name
  · rw [if_pos hname, hname]
    exact ⟨type', hf.memberType?, hv⟩
  · rw [if_neg hname]
    exact hfields l hl name' n hn

theorem setElement (h : σ.WellTyped c type m) {a : Nat} {values : List Value} {element : TypeId}
    (hitem : σ.items[a]? = some (.array type' values))
    (he : c.types.element? type' = some element) (hv : σ.Admits c.types element v) (n : Nat) :
    (σ.setItem a (.array type' (values.set n v))).WellTyped c type m := by
  refine h.setItem hitem rfl ⟨element, he, fun w hw => ?_⟩
  rcases List.mem_or_eq_of_mem_set hw with hold | rfl
  · exact h.array hitem he w hold
  · exact hv

end WellTyped

end Store

end IcLir
