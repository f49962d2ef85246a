import IcLir.Proofs.StoreTyping

/-
  What running an expression ends with. In a well-typed store, an expression of an accepted
  method that calls nothing ends with a value of its type and a well-typed store, or at a guard;
  an assignment to a location ends with a well-typed store, or at a guard.
-/

namespace IcLir

open Pass Definition Typing TypeTable

/-- A run may stop at a guard. -/
def Fault.IsGuard (fault : Fault) : Prop := ∃ g, fault = .guard g

/-! ## Steps of a run -/

namespace Action

variable {α : Type} {σ : Store} {post : α → Store → Prop}

variable {type : TypeId} {a : Nat} {v : Value}

variable {f : State → Outcome α} {c : Context} {name : String} {owner : TypeId}
    {field : String → Value} {values : List Value} {i : Int}

theorem meets_ask {a : α} (hf : f σ.state = .ok a) (h : post a σ) :
    Meets Fault.IsGuard (ask f) σ post := by
  unfold Meets ask
  rw [hf]
  exact h

theorem meets_ask_guard {g : Guard} (hf : f σ.state = .error (.guard g)) :
    Meets Fault.IsGuard (ask f) σ post := by
  unfold Meets ask
  rw [hf]
  exact ⟨g, rfl⟩

/-- A run that is never stuck does as the one that it refines. -/
theorem Refines.eq_of_meets {x y : Action α} (h : Refines x y) (hx : Meets Fault.IsGuard x σ post) :
    x σ = y σ := by
  rcases h σ with heq | ⟨σ', hstuck⟩
  · exact heq
  · unfold Meets at hx
    rw [hstuck] at hx
    obtain ⟨g, hg⟩ := hx
    simp at hg

/-- A value that is null ends the run at the guard. -/
theorem meets_address {post : Nat → Store → Prop} (hv : v = .null ∨ ∃ a, v = .ref a ∧ post a σ) :
    Meets Fault.IsGuard (ask fun _ => v.address) σ post := by
  rcases hv with rfl | ⟨a, rfl, hpost⟩
  · exact ⟨.nullRef, rfl⟩
  · exact hpost

/-- An operation that is safe, and whose result is not void. -/
theorem meets_ask_of_safe {x : Outcome Value} {types : TypeTable} {post : Value → Store → Prop}
    (hx : σ.state.Safe types type x) (hne : type ≠ TypeId.void)
    (h : ∀ v, σ.Admits types type v → post v σ) : Meets Fault.IsGuard (ask fun _ => x) σ post := by
  cases x with
  | ok v => exact h v (Store.admits_of_ne_void hx hne)
  | error fault =>
    cases fault with
    | guard g => exact ⟨g, rfl⟩
    | stuck => exact hx.elim

theorem meets_getField {post : Value → Store → Prop} (hf : σ.FieldAt c a name type owner field)
    (h : post (field name) σ) : Meets Fault.IsGuard (ask (c.getField a name)) σ post := by
  have hitem : σ.state.heap a = some (.object owner field) := hf.item
  refine meets_ask ?_ h
  rw [Context.getField, hitem]
  exact if_pos hf.hasField

theorem meets_setField {post : Unit → Store → Prop}
    (hf : σ.FieldAt c a name type owner field)
    (h : post ()
      (σ.setItem a (.object owner fun name' => if name' = name then v else field name'))) :
    Meets Fault.IsGuard (c.setField a name v) σ post := by
  unfold Meets Context.setField
  rw [hf.item]
  dsimp only
  rw [if_pos hf.hasField]
  exact h

/-- An index that does not lie within the array ends the run at the guard. -/
theorem meets_element {post : Value → Store → Prop} (ha : σ.items[a]? = some (.array type values))
    (h : ∀ v ∈ values, post v σ) :
    Meets Fault.IsGuard (ask fun s => s.element a (.int i)) σ post := by
  have helement := State.element_int (σ := σ.state) ha i
  by_cases hi : 0 ≤ i ∧ i < values.length
  · have hlt : i.toNat < values.length := by omega
    rw [if_pos hi, List.getD_eq_getElem?_getD, List.getElem?_eq_getElem hlt] at helement
    exact meets_ask helement (h _ (List.getElem_mem hlt))
  · rw [if_neg hi] at helement
    exact meets_ask_guard helement

theorem meets_setElement {post : Unit → Store → Prop} (ha : σ.items[a]? = some (.array type values))
    (h : post () (σ.setItem a (.array type (values.set i.toNat v)))) :
    Meets Fault.IsGuard (setElement a (.int i) v) σ post := by
  unfold Meets setElement
  rw [ha]
  dsimp only
  by_cases hi : 0 ≤ i ∧ i < values.length
  · rw [if_pos hi]
    exact h
  · rw [if_neg hi]
    exact ⟨.arrayAccess, rfl⟩

theorem meets_truth {b : Bool} {post : Bool → Store → Prop} (hv : v = .bool b) (h : post b σ) :
    Meets Fault.IsGuard (ask fun _ => v.truth) σ post := by
  subst hv
  exact h

end Action

open IcLir.Action

/-- The expressions stand in the method, and are no calls. -/
def MethodDecl.Runs (m : MethodDecl) (es : List Expr) : Prop :=
  ∀ e ∈ es, e.isCall = false ∧ e ∈ Stmt.exprsOfList m.body

theorem MethodDecl.Runs.mono {m : MethodDecl} {es es' : List Expr} (h : m.Runs es)
    (hsub : es' ⊆ es) : m.Runs es' := fun e he => h e (hsub he)

/-- Method `m` was checked in `env`, and its variables are those of its scopes. -/
structure Context.RunsIn (c : Context) (p : Program) (env : MethodEnv) (m : MethodDecl) : Prop
    extends ChecksIn env p c.definition where
  accepts : c.Accepts p
  isStatic : env.isStatic = m.isStatic
  reads : ∀ node name scope, Expr.var node name ∈ Stmt.exprsOfList m.body →
    c.references.get? node.id = some (.variable scope) → c.IsScopeOf m scope

/-- What a run from `σ` ends with: a value of type `result`. -/
structure Store.Gives (σ : Store) (c : Context) (type : TypeId) (m : MethodDecl) (result : TypeId)
    (v : Value) (σ' : Store) : Prop where
  later : σ.Later σ'
  wellTyped : σ'.WellTyped c type m
  admits : σ'.Admits c.types result v

section

variable {c : Context} {p : Program} {env : MethodEnv} {m : MethodDecl} {σ σ' σ'' : Store}
  {type result : TypeId} {v : Value}

namespace Store

/-- What follows a run from `σ`, from a later store on. -/
theorem Later.gives (h : σ.Later σ') (hv : σ'.Gives c type m result v σ'') :
    σ.Gives c type m result v σ'' := ⟨h.trans hv.later, hv.wellTyped, hv.admits⟩

theorem Gives.holds {q : Primitive} (h : σ.Gives c type m q.id v σ') (hc : c.Accepts p) :
    q.Holds v :=
  (h.wellTyped.heapFits hc).holds_of_admits hc.defined.table h.admits.1

/-- A new object holds values of the types of its fields. -/
theorem itemFits_newObject (h : c.Accepts p) {name : String}
    (htype : c.types.class? name = some type) : σ.ItemFits c (c.newObject type) := by
  have hclass := isClass_of_class? htype
  refine ⟨hclass, fun l hl name n hn => ?_⟩
  obtain ⟨i, k, hi, rfl⟩ := h.defined.table.isClass type hclass
  obtain ⟨scope, parent, hc⟩ := h.defined.classOf i k hi
  obtain ⟨l', hl', hlayout, _⟩ := h.laidOut i k scope parent (List.getElem?_eq_some_iff.mp hi).1 hi
    hc.toClassDefined
  obtain rfl : l' = l := Option.some.inj (hl'.symm.trans hl)
  obtain ⟨s, hs, _⟩ := hlayout.lays.offset name n hn
  have hmember : c.memberType? (classId i) name = some s.type := Context.memberType?_eq hc.get? hs
  refine ⟨s.type, hmember, ?_⟩
  dsimp only
  rw [hmember]
  exact admits_initial σ c.types s.type

/-- A new item, at the end of the store. -/
theorem gives_push (h : σ.WellTyped c type m) {item : Item} (hitem : σ.ItemFits c item)
    (hresult : item.IsA c.types result) (hne : result ≠ TypeId.void) :
    σ.Gives c type m result (.ref σ.items.length) (σ.push item) where
  later := σ.later_push item
  wellTyped := h.push hitem
  admits := by
    refine admits_of_ne_void ⟨item, ?_, hresult⟩ hne
    change (σ.items ++ [item])[σ.items.length]? = some item
    simp

end Store

theorem literalType_ne_void (value : Literal) : literalType value ≠ TypeId.void := by
  cases value <;> (rw [literalType]; decide)

theorem unaryType_ne_void (op : UnaryOp) : unaryType op ≠ TypeId.void := by
  cases op <;> decide

/-! ## Operands -/

section

variable {α : Type} {post : α → Store → Prop} {x y : Action Value}

/-- The left operand keeps its type while the right one is computed. -/
theorem Action.meets_pair {left right : TypeId} {k : Value → Value → Action α}
    (hx : Meets Fault.IsGuard x σ (σ.Gives c type m left))
    (hy : ∀ σ₁ : Store, σ₁.WellTyped c type m →
      Meets Fault.IsGuard y σ₁ (σ₁.Gives c type m right))
    (h : ∀ v w σ', σ.Later σ' → σ'.WellTyped c type m → σ'.Admits c.types left v →
      σ'.Admits c.types right w → Meets Fault.IsGuard (k v w) σ' post) :
    Meets Fault.IsGuard (x >>= fun v => y >>= fun w => k v w) σ post := by
  rw [meets_bind]
  refine hx.mono ?_
  intro v σ₁ h₁
  refine (hy σ₁ h₁.wellTyped).bind ?_
  intro w σ₂ h₂
  exact h v w σ₂ (h₁.later.trans h₂.later) h₂.wellTyped (h₂.later.admits h₁.admits) h₂.admits

namespace Context.RunsIn

variable {k : Nat → Action α} {name : String} {s : Symbol} {element : TypeId}

/-- The receiver has the fields of its class. -/
theorem meets_self (hin : c.RunsIn p env m) (hσ : σ.WellTyped c env.type m)
    (hstatic : env.isStatic = false) (hs : env.scopes.lookupMember env.classScope name = some s)
    (hk : s.kind = .field) (h : ∀ a owner field, σ.FieldAt c a name s.type owner field →
      Meets Fault.IsGuard (k a) σ post) : Meets Fault.IsGuard (ask State.self >>= k) σ post := by
  obtain ⟨i, d, parent, _, htype, hc⟩ := hin.classOf
  rw [hin.scopes] at hs
  have hobject := hσ.receiver (hin.isStatic ▸ hstatic)
  rw [htype] at hobject
  obtain ⟨a, owner, field, ha, hf⟩ := hσ.exists_field hin.accepts hc hs hk hobject
  rw [meets_bind]
  exact meets_ask (State.self_ref ha) (h a owner field hf)

/-- What is of a class type is null or has the fields of the class. -/
theorem meets_object (hin : c.RunsIn p env m)
    (hx : Meets Fault.IsGuard x σ (σ.Gives c env.type m type))
    (hclass : c.types.isClass type = true) {scope : ScopeId}
    (hscope : env.scopes.classScopes.get? type = some scope)
    (hs : env.scopes.lookupMember scope name = some s) (hk : s.kind = .field)
    (h : ∀ a owner field σ', σ.Later σ' → σ'.WellTyped c env.type m →
      σ'.FieldAt c a name s.type owner field → Meets Fault.IsGuard (k a) σ' post) :
    Meets Fault.IsGuard (x >>= fun v => (ask fun _ => v.address) >>= k) σ post := by
  have ht := hin.defined.table
  obtain ⟨i, d, hi, rfl⟩ := ht.isClass type hclass
  obtain ⟨scope', parent, hc⟩ := hin.defined.classOf i d hi
  rw [hin.scopes] at hscope hs
  obtain rfl : scope' = scope := Option.some.inj (hc.get?.symm.trans hscope)
  rw [meets_bind]
  refine hx.mono ?_
  intro v σ₁ h₁
  have hheap := h₁.wellTyped.heapFits hin.accepts
  rw [meets_bind]
  refine meets_address ((hheap.null_or_object ht hclass h₁.admits.1).imp id fun hv => ?_)
  obtain ⟨a, owner, field, rfl, hf⟩ := h₁.wellTyped.exists_field hin.accepts hc hs hk hv
  exact ⟨a, rfl, h a owner field σ₁ h₁.later h₁.wellTyped hf⟩

/-- What is of an array type is null or an array of that type. -/
theorem meets_array (hin : c.RunsIn p env m)
    (hx : Meets Fault.IsGuard x σ (σ.Gives c env.type m type))
    (he : c.types.element? type = some element)
    (h : ∀ a values σ', σ.Later σ' → σ'.WellTyped c env.type m →
      σ'.items[a]? = some (.array type values) → Meets Fault.IsGuard (k a) σ' post) :
    Meets Fault.IsGuard (x >>= fun v => (ask fun _ => v.address) >>= k) σ post := by
  rw [meets_bind]
  refine hx.mono ?_
  intro v σ₁ h₁
  have hheap := h₁.wellTyped.heapFits hin.accepts
  rw [meets_bind]
  refine meets_address ((hheap.null_or_array hin.defined.table he h₁.admits.1).imp id ?_)
  intro hv
  obtain ⟨a, values, rfl, hitem, _⟩ := hv
  exact ⟨a, rfl, h a values σ₁ h₁.later h₁.wellTyped hitem⟩

/-- The array may be changed while the index is computed, but is still there. -/
theorem meets_index (hin : c.RunsIn p env m)
    (hx : Meets Fault.IsGuard x σ (σ.Gives c env.type m type))
    (he : c.types.element? type = some element) (hy : ∀ σ₁ : Store, σ₁.WellTyped c env.type m →
      Meets Fault.IsGuard y σ₁ (σ₁.Gives c env.type m TypeId.int)) {k : Nat → Value → Action α}
    (h : ∀ a values i σ', σ.Later σ' → σ'.WellTyped c env.type m →
      σ'.items[a]? = some (.array type values) → Meets Fault.IsGuard (k a (.int i)) σ' post) :
    Meets Fault.IsGuard
      (x >>= fun v => (ask fun _ => v.address) >>= fun a => y >>= fun j => k a j) σ post := by
  refine hin.meets_array hx he ?_
  intro a values σ₁ hlater hσ₁ hitem
  refine (hy σ₁ hσ₁).bind ?_
  intro j σ₂ h₂
  obtain ⟨values', hitem'⟩ := h₂.later.array hitem
  obtain ⟨i, rfl⟩ := h₂.holds (q := .int) hin.accepts
  exact h a values' i σ₂ (hlater.trans h₂.later) h₂.wellTyped hitem'

end Context.RunsIn

end

/-! ## Expressions -/

theorem Typing.HasType.meets_run (hin : c.RunsIn p env m) (P : Platform) {e : Expr} {type : TypeId}
    (h : HasType c.typing env e type) (hr : m.Runs e.nodes) {σ : Store}
    (hσ : σ.WellTyped c env.type m) :
    Meets Fault.IsGuard (e.run c P) σ (σ.Gives c env.type m type) := by
  have ht := hin.defined.table
  obtain ⟨hfree, hmem⟩ := hr e e.mem_nodes
  match h with
  | @HasType.literal _ _ _ value _ =>
    refine ⟨.refl σ, hσ, Store.admits_of_ne_void ?_ (literalType_ne_void value)⟩
    cases value <;> rfl
  | @HasType.var _ _ node name s hget _ href _ =>
    have href' : c.references.get? node.id = some (.variable s.scope) := href
    have hscope := hin.reads node name s.scope hmem href'
    rw [hin.scopes] at hget
    rw [Expr.run, href']
    exact meets_ask rfl ⟨.refl σ, hσ, hσ.var s.scope name.name s hscope hget⟩
  | @HasType.ownField _ _ node name s hstatic hs hk href _ =>
    have href' : c.references.get? node.id = some (.field s.scope) := href
    rw [Expr.run, href']
    refine hin.meets_self hσ hstatic hs hk ?_
    intro a owner field hf
    exact meets_getField hf ⟨.refl σ, hσ, hf.admits⟩
  | @HasType.field _ _ node object name owner scope s hobject hclass hscope hs hk _ =>
    have hx := hobject.meets_run hin P (hr.mono (Expr.nodes_subset_field node object name)) hσ
    rw [Expr.run]
    refine hin.meets_object hx hclass hscope hs hk ?_
    intro a owner field σ' hlater hσ' hf
    exact meets_getField hf ⟨hlater, hσ', hf.admits⟩
  | @HasType.index _ _ node array i arrayType element harray he hi _ =>
    have hx := harray.meets_run hin P (hr.mono (Expr.nodes_subset_index_left node array i)) hσ
    rw [Expr.run]
    refine hin.meets_index hx he (fun σ₁ => hi.meets_run hin P
      (hr.mono (Expr.nodes_subset_index_right node array i))) ?_
    intro a values j σ' hlater hσ' hitem
    exact meets_element hitem fun v hv => ⟨hlater, hσ', hσ'.array hitem he v hv⟩
  | @HasType.length _ _ node array arrayType harray hisArray _ =>
    have hx := harray.meets_run hin P (hr.mono (Expr.nodes_subset_length node array)) hσ
    obtain ⟨element, he⟩ := exists_element?_of_isArray hisArray
    rw [Expr.run]
    refine hin.meets_array hx he ?_
    intro a values σ' hlater hσ' hitem
    have hlength : (do return .int (← σ'.state.values a).length : Outcome Value) =
        .ok (.int values.length) := by
      rw [State.values_array hitem]
      rfl
    exact meets_ask hlength ⟨hlater, hσ', Store.admits_of_ne_void rfl (by decide)⟩
  | @HasType.binary _ _ node op left right leftType rightType _ hleft hright hrule _ =>
    have hx :=
      hleft.meets_run hin P (hr.mono (Expr.nodes_subset_binary_left node left right op)) hσ
    have hy : ∀ σ₁ : Store, σ₁.WellTyped c env.type m →
        Meets Fault.IsGuard (right.run c P) σ₁ (σ₁.Gives c env.type m rightType) :=
      fun σ₁ => hright.meets_run hin P (hr.mono (Expr.nodes_subset_binary_right node left right op))
    cases op with
    | logic op =>
      obtain ⟨rfl, rfl, rfl⟩ := hrule
      rw [Expr.run, meets_bind]
      refine hx.mono ?_
      intro v σ₁ h₁
      obtain ⟨b, rfl⟩ := h₁.holds (q := .boolean) hin.accepts
      rw [meets_bind]
      refine meets_truth rfl ?_
      split
      · exact ⟨h₁.later, h₁.wellTyped, Store.admits_of_ne_void rfl (by decide)⟩
      · refine (hy σ₁ h₁.wellTyped).bind ?_
        intro w σ₂ h₂
        obtain ⟨b', rfl⟩ := h₂.holds (q := .boolean) hin.accepts
        exact h₁.later.gives ⟨h₂.later, h₂.wellTyped, Store.admits_of_ne_void rfl (by decide)⟩
    | compare op =>
      rw [Expr.run]
      refine meets_pair hx hy ?_
      intro v w σ' hlater hσ' hv hw
      have hsafe := (hσ'.heapFits hin.accepts).safe_compare ht hrule hv.1 hw.1
      obtain ⟨rfl, _⟩ := hrule
      exact meets_ask_of_safe hsafe (by decide) fun u hu => ⟨hlater, hσ', hu⟩
    | arith op =>
      obtain ⟨rfl, rfl, hkind⟩ := hrule
      rw [Expr.run]
      refine meets_pair hx hy ?_
      intro v w σ' hlater hσ' hv hw
      have hsafe := (hσ'.heapFits hin.accepts).safe_joins ht P hleft.recorded hkind hv.1 hw.1
      have hne : type ≠ TypeId.void := by
        rcases hkind with rfl | ⟨_, rfl⟩ <;> decide
      exact meets_ask_of_safe hsafe hne fun u hu => ⟨hlater, hσ', hu⟩
  | @HasType.unary _ _ node op operand hoperand _ =>
    have hx := hoperand.meets_run hin P (hr.mono (Expr.nodes_subset_unary node operand op)) hσ
    rw [Expr.run, meets_bind]
    refine hx.mono ?_
    intro v σ₁ h₁
    have hsafe := (h₁.wellTyped.heapFits hin.accepts).safe_unary ht P h₁.admits.1
    exact meets_ask_of_safe hsafe (unaryType_ne_void op) fun u hu => ⟨h₁.later, h₁.wellTyped, hu⟩
  | @HasType.paren _ _ node inner _ hinner _ =>
    exact hinner.meets_run hin P (hr.mono (Expr.nodes_subset_paren node inner)) hσ
  | .this hstatic _ =>
    obtain ⟨i, k, _, hi, htype, _⟩ := hin.classOf
    have hne := ht.ne_primitive_of_isClass (htype ▸ ht.isClass_classId hi) .void
    obtain ⟨a, owner, field, hv, hitem, hsub⟩ := hσ.receiver (hin.isStatic ▸ hstatic)
    have hadmits : σ.Admits c.types env.type σ.receiver :=
      Store.admits_of_ne_void (hv ▸ ⟨_, hitem, hsub⟩) hne
    exact meets_ask rfl ⟨.refl σ, hσ, hadmits⟩
  | @HasType.newObject _ _ node className _ htype _ =>
    have htype' : c.types.class? className.name = some type := htype
    have hne := ht.ne_primitive_of_isClass (isClass_of_class? htype') .void
    rw [Expr.run, htype']
    exact Store.gives_push hσ (Store.itemFits_newObject hin.accepts htype')
      (ClassTable.isSubtype_self type) hne
  | @HasType.newArray _ _ node element size _ hsize htype _ =>
    have hx := hsize.meets_run hin P (hr.mono (Expr.nodes_subset_newArray node size element)) hσ
    have htype' : c.types.denoted? element.arrayOf = some type := htype
    obtain ⟨id, hid, he⟩ := exists_element_of_denoted?_arrayOf htype'
    have hne := ht.ne_primitive_of_element? he .void
    rw [Expr.run, meets_bind]
    refine hx.mono ?_
    intro v σ₁ h₁
    obtain ⟨n, rfl⟩ := h₁.holds (q := .int) hin.accepts
    unfold Context.newArray
    rw [hid, htype']
    dsimp only
    split
    · exact ⟨.size, rfl⟩
    · refine h₁.later.gives (Store.gives_push h₁.wellTyped ⟨id, he, fun w hw => ?_⟩ rfl hne)
      rw [List.eq_of_mem_replicate hw]
      exact Store.admits_initial σ₁ c.types id
  | .staticCall .. | .ownCall .. | .methodCall .. => exact absurd hfree.symm Bool.false_ne_true

/-- A location takes a value of its type. -/
theorem Typing.HasType.meets_assign (hin : c.RunsIn p env m) (P : Platform) {target : Expr}
    {type : TypeId} (h : HasType c.typing env target type) (hloc : target.isLocation = true)
    (hr : m.Runs target.nodes) {σ : Store} (hσ : σ.WellTyped c env.type m) {v : Value}
    (hv : σ.Admits c.types type v) :
    Meets Fault.IsGuard (target.assign c P v) σ fun _ σ' => σ'.WellTyped c env.type m := by
  cases h with
  | @var node name s hget _ href _ =>
    have href' : c.references.get? node.id = some (.variable s.scope) := href
    rw [hin.scopes] at hget
    rw [Expr.assign, href']
    exact hσ.setVar hget hv
  | @ownField node name s hstatic hs hk href _ =>
    have href' : c.references.get? node.id = some (.field s.scope) := href
    rw [Expr.assign, href']
    refine hin.meets_self hσ hstatic hs hk ?_
    intro a owner field hf
    exact meets_setField hf (hσ.setField hf hv)
  | @field node object name owner scope s hobject hclass hscope hs hk _ =>
    have hx := hobject.meets_run hin P (hr.mono (Expr.nodes_subset_field node object name)) hσ
    rw [Expr.assign]
    refine hin.meets_object hx hclass hscope hs hk ?_
    intro a owner field σ' hlater hσ' hf
    exact meets_setField hf (hσ'.setField hf (hlater.admits hv))
  | @index node array i arrayType element harray he hi _ =>
    have hx := harray.meets_run hin P (hr.mono (Expr.nodes_subset_index_left node array i)) hσ
    rw [Expr.assign]
    refine hin.meets_index hx he (fun σ₁ => hi.meets_run hin P
      (hr.mono (Expr.nodes_subset_index_right node array i))) ?_
    intro a values j σ' hlater hσ' hitem
    exact meets_setElement hitem (hσ'.setElement hitem he (hlater.admits hv) j.toNat)
  | literal | staticCall | ownCall | methodCall | this | newObject | newArray | length | binary
  | unary | paren => simp [Expr.isLocation] at hloc

theorem Typing.HasType.meets_test (hin : c.RunsIn p env m) (P : Platform) {e : Expr}
    (h : HasType c.typing env e TypeId.boolean) (hr : m.Runs e.nodes) {σ : Store}
    (hσ : σ.WellTyped c env.type m) :
    Meets Fault.IsGuard (e.test c P) σ fun _ σ' => σ'.WellTyped c env.type m := by
  unfold Expr.test
  refine (h.meets_run hin P hr hσ).bind ?_
  intro v σ₁ h₁
  obtain ⟨b, rfl⟩ := h₁.holds (q := .boolean) hin.accepts
  exact h₁.wellTyped

end

end IcLir
