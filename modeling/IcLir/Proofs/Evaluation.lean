import IcLir.Context
import IcLir.Proofs.Machine
import IcLir.Tree.Traversal

/-
  What an expression means: the value that it has in a state, found from left to right, or the
  guard that fails first. Only expressions without calls and allocations are given a meaning.
  An operation on values that it is not meant for is `stuck`; a guard that fails is an outcome
  like a value.
-/

namespace IcLir

/-- A value of the source language. Nothing is known of a value of type void but its word. -/
inductive Value where
  | int (n : Int)
  | bool (b : Bool)
  | string (text : String)
  | null
  | ref (a : Nat)
  | void (w : Word)
deriving DecidableEq, Repr, Inhabited

inductive Fault where
  | guard (g : Guard)
  | stuck
deriving DecidableEq, Repr, Inhabited

abbrev Outcome := Except Fault

theorem Outcome.eq_ok_of_toOption {α : Type} {x : Outcome α} {a : α}
    (h : x.toOption = some a) : x = .ok a := by
  cases x with
  | ok b => exact congrArg Except.ok (Option.some.inj h)
  | error fault => cases h

/-- What an address leads to. -/
inductive Item where
  | object (type : TypeId) (field : String → Value)
  | array (type : TypeId) (values : List Value)

/-- The state of a method: its variables, by the scope that declares them and their name, its
    receiver and the heap. -/
structure State where
  var : ScopeId → String → Value
  receiver : Value
  heap : Nat → Option Item

def Literal.value : Literal → Value
  | .int n => .int n
  | .string text => .string text
  | .bool b => .bool b
  | .null => .null

namespace Value

def truth : Value → Outcome Bool
  | .bool b => .ok b
  | _ => .error .stuck

/-- What a value adds to a text. -/
def text (P : Platform) : Value → Outcome String
  | .string s => .ok s
  | .null => .ok (P.text Word.null)
  | _ => .error .stuck

def isReference : Value → Bool
  | .string _ | .null | .ref _ => true
  | .int _ | .bool _ | .void _ => false

def isBool : Value → Bool
  | .bool _ => true
  | _ => false

/-- Where a reference leads; null leads nowhere. -/
def address : Value → Outcome Nat
  | .ref a => .ok a
  | .null => .error (.guard .nullRef)
  | _ => .error .stuck

end Value

namespace State

def field (σ : State) (a : Nat) (name : String) : Outcome Value :=
  match σ.heap a with
  | some (.object _ field) => .ok (field name)
  | _ => .error .stuck

/-- A field of the receiver, which is never null. -/
def ownField (σ : State) (name : String) : Outcome Value :=
  match σ.receiver with
  | .ref a => σ.field a name
  | _ => .error .stuck

/-- The elements of an array. -/
def values (σ : State) (a : Nat) : Outcome (List Value) :=
  match σ.heap a with
  | some (.array _ values) => .ok values
  | _ => .error .stuck

/-- An element of an array, if the index lies within it. -/
def element (σ : State) (a : Nat) (index : Value) : Outcome Value := do
  let values ← σ.values a
  match index with
  | .int i =>
    if 0 ≤ i ∧ i < values.length then .ok (values.getD i.toNat .null)
    else .error (.guard .arrayAccess)
  | _ => .error .stuck

theorem element_int {σ : State} {a : Nat} {type : TypeId} {values : List Value}
    (h : σ.heap a = some (.array type values)) (i : Int) :
    σ.element a (.int i) =
      if 0 ≤ i ∧ i < values.length then .ok (values.getD i.toNat .null)
      else .error (.guard .arrayAccess) := by
  rw [element, State.values, h]
  rfl

/-- Only a number is an index, and only of an array. -/
theorem element_cases (σ : State) (a : Nat) (v : Value) :
    σ.element a v = .error .stuck ∨
      ∃ type values i, σ.heap a = some (.array type values) ∧ v = .int i := by
  unfold element State.values
  split
  · next type values hitem =>
    cases v with
    | int i => exact .inr ⟨type, values, i, hitem, rfl⟩
    | bool | string | null | ref | void => exact .inl rfl
  · exact .inl rfl

end State

/-! ## Operations -/

/-- Whether a comparison holds of two numbers. -/
def CompareOp.relates (op : CompareOp) (a b : Int) : Bool :=
  match op with
  | .eq => a = b
  | .ne => a ≠ b
  | .lt => a < b
  | .le => a ≤ b
  | .gt => a > b
  | .ge => a ≥ b

/-- A comparison of numbers, or a test for equality. -/
def CompareOp.apply (op : CompareOp) (v w : Value) : Outcome Value :=
  match v, w with
  | .int a, .int b => .ok (.bool (op.relates a b))
  | v, w =>
    if v.isBool && w.isBool || v.isReference && w.isReference then
      match op with
      | .eq => .ok (.bool (v = w))
      | .ne => .ok (.bool (v ≠ w))
      | _ => .error .stuck
    else .error .stuck

def ArithOp.apply (P : Platform) (op : ArithOp) (v w : Value) : Outcome Value :=
  match v, w with
  | .int a, .int b =>
    if op.divides ∧ b = 0 then .error (.guard .zero) else .ok (.int (P.arith op a b))
  | _, _ => .error .stuck

/-- The text of one value followed by that of another. -/
def Value.join (P : Platform) (v w : Value) : Outcome Value := do
  return .string ((← v.text P) ++ (← w.text P))

def UnaryOp.apply (P : Platform) (op : UnaryOp) (v : Value) : Outcome Value :=
  match op, v with
  | .neg, .int n => .ok (.int (P.neg n))
  | .not, .bool b => .ok (.bool !b)
  | _, _ => .error .stuck

/-- The left operand that settles a logical operation. -/
def LogicOp.settledBy : LogicOp → Bool
  | .or => true
  | .and => false

/-- A logical operation; the right operand is left alone if the left one settles it. -/
def LogicOp.apply (op : LogicOp) (left right : Outcome Value) : Outcome Value := do
  let b ← (← left).truth
  if b = op.settledBy then return .bool b
  else return .bool (← (← right).truth)

/-- Whether an addition joins strings. -/
def Context.joins (c : Context) (op : ArithOp) (left : Expr) : Bool :=
  op = .add && c.exprTypes.get? left.id = some TypeId.string

/-! ## Expressions -/

namespace Expr

def isAllocation : Expr → Bool
  | .newObject .. | .newArray .. => true
  | _ => false

/-- Without calls and allocations. -/
def IsPlain (e : Expr) : Prop := ∀ x ∈ e.nodes, x.isCall = false ∧ x.isAllocation = false

instance (e : Expr) : Decidable e.IsPlain :=
  inferInstanceAs (Decidable (∀ x ∈ e.nodes, x.isCall = false ∧ x.isAllocation = false))

theorem mem_nodes (e : Expr) : e ∈ e.nodes := by
  cases e <;> simp [nodes]

theorem IsPlain.mono {e x : Expr} (h : e.IsPlain) (hx : x.nodes ⊆ e.nodes) : x.IsPlain :=
  fun y hy => h y (hx hy)

section

variable (n : Node) (e e' : Expr) (name : Ident)

theorem nodes_subset_field : e.nodes ⊆ (field n e name).nodes := List.subset_cons_self ..

theorem nodes_subset_length : e.nodes ⊆ (length n e).nodes := List.subset_cons_self ..

theorem nodes_subset_newArray (type : TypeExpr) : e.nodes ⊆ (newArray n type e).nodes :=
  List.subset_cons_self ..

theorem nodes_subset_unary (op : UnaryOp) : e.nodes ⊆ (unary n op e).nodes :=
  List.subset_cons_self ..

theorem nodes_subset_paren : e.nodes ⊆ (paren n e).nodes := List.subset_cons_self ..

theorem nodes_subset_index_left : e.nodes ⊆ (index n e e').nodes :=
  fun _ hx => List.mem_cons_of_mem _ (List.mem_append_left _ hx)

theorem nodes_subset_index_right : e'.nodes ⊆ (index n e e').nodes :=
  fun _ hx => List.mem_cons_of_mem _ (List.mem_append_right _ hx)

theorem nodes_subset_binary_left (op : BinaryOp) : e.nodes ⊆ (binary n op e e').nodes :=
  fun _ hx => List.mem_cons_of_mem _ (List.mem_append_left _ hx)

theorem nodes_subset_binary_right (op : BinaryOp) : e'.nodes ⊆ (binary n op e e').nodes :=
  fun _ hx => List.mem_cons_of_mem _ (List.mem_append_right _ hx)

end

mutual

/-- The parts of a part are parts. -/
theorem nodes_sublist_of_mem {e x : Expr} (hx : x ∈ e.nodes) : x.nodes.Sublist e.nodes := by
  by_cases hself : x = e
  · exact hself ▸ List.Sublist.refl _
  match e with
  | .literal .. | .var .. | .this .. | .newObject .. =>
    exact absurd (List.mem_singleton.mp hx) hself
  | .field _ e _ | .newArray _ _ e | .length _ e | .unary _ _ e | .paren _ e =>
    exact .cons _ (nodes_sublist_of_mem ((List.mem_cons.mp hx).resolve_left hself))
  | .index _ e e' | .binary _ _ e e' =>
    rcases List.mem_append.mp ((List.mem_cons.mp hx).resolve_left hself) with hx | hx
    · exact .cons _ (List.sublist_append_of_sublist_left (nodes_sublist_of_mem hx))
    · exact .cons _ (List.sublist_append_of_sublist_right (nodes_sublist_of_mem hx))
  | .staticCall _ _ _ args | .ownCall _ _ args =>
    exact .cons _ (nodes_sublist_of_mem_list ((List.mem_cons.mp hx).resolve_left hself))
  | .methodCall _ e _ args =>
    rcases List.mem_append.mp ((List.mem_cons.mp hx).resolve_left hself) with hx | hx
    · exact .cons _ (List.sublist_append_of_sublist_left (nodes_sublist_of_mem hx))
    · exact .cons _ (List.sublist_append_of_sublist_right (nodes_sublist_of_mem_list hx))

theorem nodes_sublist_of_mem_list {es : List Expr} {x : Expr} (hx : x ∈ nodesOfList es) :
    x.nodes.Sublist (nodesOfList es) := by
  match es with
  | [] => exact absurd hx List.not_mem_nil
  | e :: es =>
    rcases List.mem_append.mp hx with hx | hx
    · exact List.sublist_append_of_sublist_left (nodes_sublist_of_mem hx)
    · exact List.sublist_append_of_sublist_right (nodes_sublist_of_mem_list hx)

end

theorem nodes_subset_of_mem {e x : Expr} (hx : x ∈ e.nodes) : x.nodes ⊆ e.nodes :=
  (nodes_sublist_of_mem hx).subset

/-- The expression has a name that stands for the variable `name` of `scope`. -/
def Reads (c : Context) (e : Expr) (scope : ScopeId) (name : String) : Prop :=
  ∃ node ident, Expr.var node ident ∈ e.nodes ∧ ident.name = name ∧
    c.references.get? node.id = some (.variable scope)

theorem Reads.mono {c : Context} {e x : Expr} {scope : ScopeId} {name : String}
    (h : x.Reads c scope name) (hx : x.nodes ⊆ e.nodes) : e.Reads c scope name := by
  obtain ⟨node, ident, hmem, hname, href⟩ := h
  exact ⟨node, ident, hx hmem, hname, href⟩

/-- The value of an expression in a state. -/
def eval (c : Context) (P : Platform) (σ : State) : Expr → Outcome Value
  | .literal _ value => .ok value.value
  | .var node name =>
    match c.references.get? node.id with
    | some (.variable scope) => .ok (σ.var scope name.name)
    | some (.field _) => σ.ownField name.name
    | none => .error .stuck
  | .field _ object name => do
    let v ← eval c P σ object
    σ.field (← v.address) name.name
  | .index _ array i => do
    let v ← eval c P σ array
    let a ← v.address
    let j ← eval c P σ i
    σ.element a j
  | .length _ array => do
    let v ← eval c P σ array
    return .int (← σ.values (← v.address)).length
  | .binary _ (.logic op) left right => op.apply (eval c P σ left) (eval c P σ right)
  | .binary _ (.compare op) left right => do
    let v ← eval c P σ left
    let w ← eval c P σ right
    op.apply v w
  | .binary _ (.arith op) left right => do
    let v ← eval c P σ left
    let w ← eval c P σ right
    if c.joins op left then v.join P w else op.apply P v w
  | .unary _ op operand => do
    let v ← eval c P σ operand
    op.apply P v
  | .paren _ inner => eval c P σ inner
  | .this _ => .ok σ.receiver
  | .staticCall .. | .ownCall .. | .methodCall .. | .newObject .. | .newArray .. => .error .stuck

end Expr

/-! ## Values as words -/

/-- The word that a value is kept as. -/
def Value.word : Value → Word
  | .int n => .int n
  | .bool b => Word.ofBool b
  | .string s => .string s
  | .null => Word.null
  | .ref a => .address a
  | .void w => w

def Value.IsWord (v : Value) (w : Word) : Prop := w = v.word

/-- The memory holds the heap: objects as their class lays them out, and arrays by index. -/
structure State.HeldBy (σ : State) (c : Context) (memory : Memory) : Prop where
  field {a : Nat} {type : TypeId} {field : String → Value} {layout : ClassLayout}
    {name : String} {offset : Nat} : σ.heap a = some (.object type field) →
    c.layouts.get? type = some layout → layout.offset? name = some offset →
    (field name).IsWord (memory.field (.address a) offset)
  length {a : Nat} {type : TypeId} {values : List Value} :
    σ.heap a = some (.array type values) → memory.length (.address a) = .int values.length
  element {a : Nat} {type : TypeId} {values : List Value} {i : Nat} {v : Value} :
    σ.heap a = some (.array type values) → values[i]? = some v →
    v.IsWord (memory.element (.address a) (.int i))

end IcLir
