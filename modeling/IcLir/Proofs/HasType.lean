import IcLir.Proofs.ScopedBody
import IcLir.Proofs.WrittenTypes
import IcLir.Typing.Check

/-
  The typing rules, as a judgement on the tables that the typing stage leaves: `HasType t env e
  type` says that `e` is well typed in a method of `env`, and that every node of it has its type,
  and every bare name what it stands for, in the tables of `t`. Work on other nodes keeps this
  (`HasType.step`).
-/

namespace IcLir

namespace Expr

def ids (e : Expr) : List NodeId := e.nodes.map Expr.id

def idsOfList (es : List Expr) : List NodeId := (nodesOfList es).map Expr.id

section

variable (n : Node) (e e' : Expr) (es : List Expr) (x x' : Ident)

@[simp] theorem ids_literal (value : Literal) : (literal n value).ids = [n.id] := rfl

@[simp] theorem ids_var : (var n x).ids = [n.id] := rfl

@[simp] theorem ids_field : (field n e x).ids = n.id :: e.ids := rfl

@[simp] theorem ids_index : (index n e e').ids = n.id :: (e.ids ++ e'.ids) := by
  simp [ids, nodes, id, node]

@[simp] theorem ids_staticCall : (staticCall n x x' es).ids = n.id :: idsOfList es := rfl

@[simp] theorem ids_ownCall : (ownCall n x es).ids = n.id :: idsOfList es := rfl

@[simp] theorem ids_methodCall :
    (methodCall n e x es).ids = n.id :: (e.ids ++ idsOfList es) := by
  simp [ids, idsOfList, nodes, id, node]

@[simp] theorem ids_this : (this n).ids = [n.id] := rfl

@[simp] theorem ids_newObject : (newObject n x).ids = [n.id] := rfl

@[simp] theorem ids_newArray (type : TypeExpr) : (newArray n type e).ids = n.id :: e.ids := rfl

@[simp] theorem ids_length : (length n e).ids = n.id :: e.ids := rfl

@[simp] theorem ids_binary (op : BinaryOp) :
    (binary n op e e').ids = n.id :: (e.ids ++ e'.ids) := by
  simp [ids, nodes, id, node]

@[simp] theorem ids_unary (op : UnaryOp) : (unary n op e).ids = n.id :: e.ids := rfl

@[simp] theorem ids_paren : (paren n e).ids = n.id :: e.ids := rfl

@[simp] theorem idsOfList_cons : idsOfList (e :: es) = e.ids ++ idsOfList es := by
  simp [ids, idsOfList, nodesOfList]

end

theorem id_mem_ids (e : Expr) : e.id ∈ e.ids := by
  cases e <;> simp [id, node]

end Expr

namespace Typing

/-- The node has its type in the table. -/
def Records (t : Typing) (node : Node) (type : TypeId) : Prop :=
  t.exprTypes.get? node.id = some type

/-- The class scope has or inherits a method `name` of the given kind and signature. -/
def HasMethod (t : Typing) (scopes : ScopeTree) (scope : ScopeId) (name : String)
    (kind : MethodKind) (signature : Signature) : Prop :=
  ∃ s, scopes.lookupMember scope name = some s ∧ s.kind = .method kind ∧
    t.types.signature? s.type = some signature

/-- The types that a binary operator takes and gives. -/
def BinaryRule (types : TypeTable) : BinaryOp → TypeId → TypeId → TypeId → Prop
  | .arith op, left, right, result =>
    left = right ∧ result = left ∧ (left = TypeId.int ∨ op = .add ∧ left = TypeId.string)
  | .logic _, left, right, result =>
    left = TypeId.boolean ∧ right = TypeId.boolean ∧ result = TypeId.boolean
  | .compare op, left, right, result =>
    result = TypeId.boolean ∧
      if op.isEquality then
        left ≠ TypeId.void ∧ right ≠ TypeId.void ∧
          (types.isSubtype left right = true ∨ types.isSubtype right left = true)
      else left = TypeId.int ∧ right = TypeId.int

/-- The type that a unary operator takes and gives. -/
def unaryType : UnaryOp → TypeId
  | .neg => TypeId.int
  | .not => TypeId.boolean

mutual

inductive HasType (t : Typing) (env : MethodEnv) : Expr → TypeId → Prop where
  | literal {node : Node} {value : Literal} :
    t.Records node (literalType value) → HasType t env (.literal node value) (literalType value)
  | var {node : Node} {name : Ident} {s : Symbol} :
    (env.scopes.scope s.scope).get? name.name = some s → s.kind.isVariable = true →
    t.references.get? node.id = some (.variable s.scope) → t.Records node s.type →
    HasType t env (.var node name) s.type
  | ownField {node : Node} {name : Ident} {s : Symbol} :
    env.isStatic = false → env.scopes.lookupMember env.classScope name.name = some s →
    s.kind = .field → t.references.get? node.id = some (.field s.scope) →
    t.Records node s.type → HasType t env (.var node name) s.type
  | field {node : Node} {object : Expr} {name : Ident} {owner : TypeId} {scope : ScopeId}
      {s : Symbol} :
    HasType t env object owner → t.types.isClass owner = true →
    env.scopes.classScopes.get? owner = some scope →
    env.scopes.lookupMember scope name.name = some s → s.kind = .field →
    t.Records node s.type → HasType t env (.field node object name) s.type
  | index {node : Node} {array i : Expr} {type element : TypeId} :
    HasType t env array type → t.types.element? type = some element →
    HasType t env i TypeId.int → t.Records node element →
    HasType t env (.index node array i) element
  | staticCall {node : Node} {className method : Ident} {args : List Expr} {type : TypeId}
      {scope : ScopeId} {kind : MethodKind} {signature : Signature} :
    t.types.class? className.name = some type → env.scopes.classScopes.get? type = some scope →
    t.HasMethod env.scopes scope method.name kind signature → kind.isStatic = true →
    HasTypes t env args signature.params → t.Records node signature.result →
    HasType t env (.staticCall node className method args) signature.result
  | ownCall {node : Node} {method : Ident} {args : List Expr} {kind : MethodKind}
      {signature : Signature} :
    t.HasMethod env.scopes env.classScope method.name kind signature →
    (env.isStatic = true → kind.isStatic = true) →
    HasTypes t env args signature.params → t.Records node signature.result →
    HasType t env (.ownCall node method args) signature.result
  | methodCall {node : Node} {receiver : Expr} {method : Ident} {args : List Expr}
      {type : TypeId} {scope : ScopeId} {kind : MethodKind} {signature : Signature} :
    HasType t env receiver type → t.types.isClass type = true →
    env.scopes.classScopes.get? type = some scope →
    t.HasMethod env.scopes scope method.name kind signature → kind.isStatic = false →
    HasTypes t env args signature.params → t.Records node signature.result →
    HasType t env (.methodCall node receiver method args) signature.result
  | this {node : Node} :
    env.isStatic = false → t.Records node env.type → HasType t env (.this node) env.type
  | newObject {node : Node} {className : Ident} {type : TypeId} :
    t.types.class? className.name = some type → t.Records node type →
    HasType t env (.newObject node className) type
  | newArray {node : Node} {element : TypeExpr} {size : Expr} {type : TypeId} :
    HasType t env size TypeId.int → t.types.denoted? element.arrayOf = some type →
    t.Records node type → HasType t env (.newArray node element size) type
  | length {node : Node} {array : Expr} {type : TypeId} :
    HasType t env array type → t.types.isArray type = true → t.Records node TypeId.int →
    HasType t env (.length node array) TypeId.int
  | binary {node : Node} {op : BinaryOp} {left right : Expr} {leftType rightType type : TypeId} :
    HasType t env left leftType → HasType t env right rightType →
    BinaryRule t.types op leftType rightType type → t.Records node type →
    HasType t env (.binary node op left right) type
  | unary {node : Node} {op : UnaryOp} {operand : Expr} :
    HasType t env operand (unaryType op) → t.Records node (unaryType op) →
    HasType t env (.unary node op operand) (unaryType op)
  | paren {node : Node} {inner : Expr} {type : TypeId} :
    HasType t env inner type → t.Records node type → HasType t env (.paren node inner) type

/-- Arguments and the parameters that they are passed to. -/
inductive HasTypes (t : Typing) (env : MethodEnv) : List Expr → List TypeId → Prop where
  | nil : HasTypes t env [] []
  | cons {arg : Expr} {args : List Expr} {actual param : TypeId} {params : List TypeId} :
    HasType t env arg actual → t.types.isSubtype actual param = true →
    HasTypes t env args params → HasTypes t env (arg :: args) (param :: params)

end

/-- What is looked up for an expression is its type. -/
theorem HasType.recorded {t : Typing} {env : MethodEnv} {e : Expr} {type : TypeId}
    (h : HasType t env e type) : t.exprTypes.get? e.id = some type := by
  cases h <;> assumption

/-! ## Work on other nodes -/

/-- The state after work on the nodes `ids`. -/
structure Step (ids : List NodeId) (t t' : Typing) : Prop where
  types : t.types.Extends t'.types
  exprTypes : ∀ n, n ∉ ids → t'.exprTypes.get? n = t.exprTypes.get? n
  references : ∀ n, n ∉ ids → t'.references.get? n = t.references.get? n

namespace Step

variable {ids ids' : List NodeId} {t t' t'' : Typing}

theorem refl (ids : List NodeId) (t : Typing) : Step ids t t :=
  ⟨.refl _, fun _ _ => rfl, fun _ _ => rfl⟩

theorem trans (h : Step ids t t') (h' : Step ids' t' t'') : Step (ids ++ ids') t t'' := by
  refine ⟨h.types.trans h'.types, ?_, ?_⟩
  · intro n hn
    rw [List.mem_append, not_or] at hn
    rw [h'.exprTypes n hn.2, h.exprTypes n hn.1]
  · intro n hn
    rw [List.mem_append, not_or] at hn
    rw [h'.references n hn.2, h.references n hn.1]

theorem mono (h : Step ids t t') (hsub : ids ⊆ ids') : Step ids' t t' :=
  ⟨h.types, fun n hn => h.exprTypes n fun hm => hn (hsub hm),
    fun n hn => h.references n fun hm => hn (hsub hm)⟩

theorem records (h : Step ids t t') {node : Node} {type : TypeId} (hnode : node.id ∉ ids)
    (hr : t.Records node type) : t'.Records node type :=
  (h.exprTypes _ hnode).trans hr

theorem hasMethod (h : Step ids t t') {scopes : ScopeTree} {scope : ScopeId} {name : String}
    {kind : MethodKind} {signature : Signature}
    (hm : t.HasMethod scopes scope name kind signature) :
    t'.HasMethod scopes scope name kind signature := by
  obtain ⟨s, hs, hk, hsig⟩ := hm
  exact ⟨s, hs, hk, h.types.signature?_of_some hsig⟩

theorem binaryRule (h : Step ids t t') {op : BinaryOp} {left right result : TypeId}
    (hr : BinaryRule t.types op left right result) : BinaryRule t'.types op left right result := by
  cases op with
  | arith op => exact hr
  | logic op => exact hr
  | compare op =>
    simp only [BinaryRule, h.types.isSubtype_eq] at hr ⊢
    exact hr

end Step

section

variable {ids : List NodeId} {t t' : Typing} {env : MethodEnv}

mutual

theorem HasType.step (hs : Step ids t t') (h : HasType t env e type) (hids : ∀ n ∈ e.ids, n ∉ ids) :
    HasType t' env e type := by
  have hnode : e.id ∉ ids := hids _ e.id_mem_ids
  match h with
  | .literal hr => exact .literal (hs.records hnode hr)
  | .var hget hk href hr =>
    exact .var hget hk ((hs.references _ hnode).trans href) (hs.records hnode hr)
  | .ownField hstatic hm hk href hr =>
    exact .ownField hstatic hm hk ((hs.references _ hnode).trans href) (hs.records hnode hr)
  | .field h hc hscope hm hk hr =>
    have hobject := h.step hs fun n hn => hids n (by simp [hn])
    exact .field hobject ((hs.types.isClass_eq _).trans hc) hscope hm hk (hs.records hnode hr)
  | .index h he hi hr =>
    have harray := h.step hs fun n hn => hids n (by simp [hn])
    have hindex := hi.step hs fun n hn => hids n (by simp [hn])
    exact .index harray (hs.types.element?_of_some he) hindex (hs.records hnode hr)
  | .staticCall hc hscope hm hk hargs hr =>
    have hargs' := hargs.step hs fun n hn => hids n (by simp [hn])
    exact .staticCall ((hs.types.class?_eq _).trans hc) hscope (hs.hasMethod hm) hk hargs'
      (hs.records hnode hr)
  | .ownCall hm hk hargs hr =>
    have hargs' := hargs.step hs fun n hn => hids n (by simp [hn])
    exact .ownCall (hs.hasMethod hm) hk hargs' (hs.records hnode hr)
  | .methodCall h hc hscope hm hk hargs hr =>
    have hreceiver := h.step hs fun n hn => hids n (by simp [hn])
    have hargs' := hargs.step hs fun n hn => hids n (by simp [hn])
    exact .methodCall hreceiver ((hs.types.isClass_eq _).trans hc) hscope (hs.hasMethod hm) hk
      hargs' (hs.records hnode hr)
  | .this hstatic hr => exact .this hstatic (hs.records hnode hr)
  | .newObject hc hr => exact .newObject ((hs.types.class?_eq _).trans hc) (hs.records hnode hr)
  | .newArray h he hr =>
    have hsize := h.step hs fun n hn => hids n (by simp [hn])
    exact .newArray hsize (hs.types.denoted?_of_some he) (hs.records hnode hr)
  | .length h ha hr =>
    have harray := h.step hs fun n hn => hids n (by simp [hn])
    exact .length harray (hs.types.isArray_of_true ha) (hs.records hnode hr)
  | .binary hl hright hrule hr =>
    have hleft := hl.step hs fun n hn => hids n (by simp [hn])
    have hright' := hright.step hs fun n hn => hids n (by simp [hn])
    exact .binary hleft hright' (hs.binaryRule hrule) (hs.records hnode hr)
  | .unary h hr =>
    exact .unary (h.step hs fun n hn => hids n (by simp [hn])) (hs.records hnode hr)
  | .paren h hr =>
    exact .paren (h.step hs fun n hn => hids n (by simp [hn])) (hs.records hnode hr)

theorem HasTypes.step (hs : Step ids t t') (h : HasTypes t env es types)
    (hids : ∀ n ∈ Expr.idsOfList es, n ∉ ids) : HasTypes t' env es types := by
  match h with
  | .nil => exact .nil
  | .cons h hsub hrest =>
    have harg := h.step hs fun n hn => hids n (by simp [hn])
    have hargs := hrest.step hs fun n hn => hids n (by simp [hn])
    exact .cons harg ((hs.types.isSubtype_eq _ _).trans hsub) hargs

end

end

/-! ## Parts of a typed expression -/

section

variable {t : Typing} {env : MethodEnv} {x : Expr}

mutual

/-- Every part of a typed expression has a type. -/
theorem HasType.exists_of_mem_nodes (h : HasType t env e type) (hx : x ∈ e.nodes) :
    ∃ type, HasType t env x type := by
  by_cases hself : x = e
  · exact ⟨type, hself ▸ h⟩
  match h with
  | .literal .. | .var .. | .ownField .. | .this .. | .newObject .. =>
    exact absurd (List.mem_singleton.mp hx) hself
  | .field h _ _ _ _ _ | .newArray h _ _ | .length h _ _ | .unary h _ | .paren h _ =>
    exact h.exists_of_mem_nodes ((List.mem_cons.mp hx).resolve_left hself)
  | .index h _ h' _ | .binary h h' _ _ =>
    rcases List.mem_append.mp ((List.mem_cons.mp hx).resolve_left hself) with hx | hx
    · exact h.exists_of_mem_nodes hx
    · exact h'.exists_of_mem_nodes hx
  | .staticCall _ _ _ _ hargs _ | .ownCall _ _ hargs _ =>
    exact hargs.exists_of_mem_nodes ((List.mem_cons.mp hx).resolve_left hself)
  | .methodCall h _ _ _ _ hargs _ =>
    rcases List.mem_append.mp ((List.mem_cons.mp hx).resolve_left hself) with hx | hx
    · exact h.exists_of_mem_nodes hx
    · exact hargs.exists_of_mem_nodes hx

theorem HasTypes.exists_of_mem_nodes (h : HasTypes t env es types) (hx : x ∈ Expr.nodesOfList es) :
    ∃ type, HasType t env x type := by
  match h with
  | .nil => exact absurd hx List.not_mem_nil
  | .cons h _ hrest =>
    rcases List.mem_append.mp hx with hx | hx
    · exact h.exists_of_mem_nodes hx
    · exact hrest.exists_of_mem_nodes hx

end

end

end Typing

end IcLir
