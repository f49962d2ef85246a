import IcLir.Proofs.Evaluation
import IcLir.Proofs.Lowered

/-
  What statements do. `Exec c P scope s cells r cells'`: the statement `s`, which stands in
  `scope`, takes the store `cells` to `cells'` and completes as `r`. Variables live in the cells
  that their slots name. There are rules for bodies over variables only: a statement that calls,
  or that reads or writes the heap, has none.
-/

namespace IcLir

open Lowering

/-- A store of variables, by the names of their slots. -/
abbrev Cells := String → Value

namespace Cells

def set (cells : Cells) (name : String) (v : Value) : Cells :=
  fun name' => if name' = name then v else cells name'

/-- The state of a method with these variables, and nothing else. -/
def state (cells : Cells) (c : Context) : State where
  var scope name := cells (slotName name (c.scopes.depth scope))
  receiver := .null
  heap _ := none

end Cells

/-- How a method ends. -/
inductive Ending where
  | returned (v : Option Value)
  | divisionByZero
deriving DecidableEq, Repr, Inhabited

/-- How a statement completes. -/
inductive Completion where
  | normal
  | broken
  | continued
  /-- Along with its method. -/
  | ended (e : Ending)
deriving DecidableEq, Repr, Inhabited

/-- The loop around a statement goes on with its condition. -/
def Completion.goesOn : Completion → Bool
  | .normal | .continued => true
  | .broken | .ended _ => false

/-- The expression that a statement evaluates first; a loop has it evaluated again and again. -/
def Stmt.operand? : Stmt → Option Expr
  | .assign _ _ value => some value
  | .ret _ value => value
  | .declare _ _ _ init => init
  | .ifThen _ condition _ | .ifElse _ condition _ _ => some condition
  | .call .. | .loop .. | .breakLoop _ | .continueLoop _ | .block .. => none

mutual

inductive Exec (c : Context) (P : Platform) :
    ScopeId → Stmt → Cells → Completion → Cells → Prop where
  | failed {scope : ScopeId} {s : Stmt} {cells : Cells} {e : Expr} :
    s.operand? = some e → e.eval c P (cells.state c) = .error (.guard .zero) →
    Exec c P scope s cells (.ended .divisionByZero) cells
  | assign {scope declared : ScopeId} {node target : Node} {name : Ident} {value : Expr}
      {cells : Cells} {v : Value} :
    value.eval c P (cells.state c) = .ok v →
    c.references.get? target.id = some (.variable declared) →
    Exec c P scope (.assign node (.var target name) value) cells .normal
      (cells.set (slotName name.name (c.scopes.depth declared)) v)
  | declare {scope : ScopeId} {node : Node} {type : TypeExpr} {name : Ident} {cells : Cells} :
    Exec c P scope (.declare node type name none) cells .normal cells
  | declareValue {scope : ScopeId} {node : Node} {type : TypeExpr} {name : Ident} {value : Expr}
      {cells : Cells} {v : Value} :
    value.eval c P (cells.state c) = .ok v →
    Exec c P scope (.declare node type name (some value)) cells .normal
      (cells.set (slotName name.name (c.scopes.depth scope)) v)
  | retNothing {scope : ScopeId} {node : Node} {cells : Cells} :
    Exec c P scope (.ret node none) cells (.ended (.returned none)) cells
  | retValue {scope : ScopeId} {node : Node} {value : Expr} {cells : Cells} {v : Value} :
    value.eval c P (cells.state c) = .ok v →
    Exec c P scope (.ret node (some value)) cells (.ended (.returned (some v))) cells
  | ifThen {scope inner : ScopeId} {node : Node} {condition : Expr} {body : Stmt}
      {cells cells' : Cells} {r : Completion} :
    condition.eval c P (cells.state c) = .ok (.bool true) →
    c.scopes.branchScope? scope body = some inner → Exec c P inner body cells r cells' →
    Exec c P scope (.ifThen node condition body) cells r cells'
  | ifThenSkip {scope : ScopeId} {node : Node} {condition : Expr} {body : Stmt}
      {cells : Cells} :
    condition.eval c P (cells.state c) = .ok (.bool false) →
    Exec c P scope (.ifThen node condition body) cells .normal cells
  | ifTrue {scope inner : ScopeId} {node : Node} {condition : Expr} {thenBranch elseBranch : Stmt}
      {cells cells' : Cells} {r : Completion} :
    condition.eval c P (cells.state c) = .ok (.bool true) →
    c.scopes.branchScope? scope thenBranch = some inner →
    Exec c P inner thenBranch cells r cells' →
    Exec c P scope (.ifElse node condition thenBranch elseBranch) cells r cells'
  | ifFalse {scope inner : ScopeId} {node : Node} {condition : Expr}
      {thenBranch elseBranch : Stmt} {cells cells' : Cells} {r : Completion} :
    condition.eval c P (cells.state c) = .ok (.bool false) →
    c.scopes.branchScope? scope elseBranch = some inner →
    Exec c P inner elseBranch cells r cells' →
    Exec c P scope (.ifElse node condition thenBranch elseBranch) cells r cells'
  | loop {scope inner : ScopeId} {node : Node} {condition : Expr} {body : Stmt}
      {cells cells' : Cells} {r : Completion} :
    c.scopes.branchScope? scope body = some inner →
    ExecLoop c P inner condition body cells r cells' →
    Exec c P scope (.loop node condition body) cells r cells'
  | breakLoop {scope : ScopeId} {node : Node} {cells : Cells} :
    Exec c P scope (.breakLoop node) cells .broken cells
  | continueLoop {scope : ScopeId} {node : Node} {cells : Cells} :
    Exec c P scope (.continueLoop node) cells .continued cells
  | block {scope inner : ScopeId} {node : Node} {stmts : List Stmt} {cells cells' : Cells}
      {r : Completion} :
    c.scopes.blockScopes.get? node.id = some inner → ExecList c P inner stmts cells r cells' →
    Exec c P scope (.block node stmts) cells r cells'

/-- A loop from the test of its condition on; the body stands in `inner`. -/
inductive ExecLoop (c : Context) (P : Platform) :
    ScopeId → Expr → Stmt → Cells → Completion → Cells → Prop where
  | failed {inner : ScopeId} {condition : Expr} {body : Stmt} {cells : Cells} :
    condition.eval c P (cells.state c) = .error (.guard .zero) →
    ExecLoop c P inner condition body cells (.ended .divisionByZero) cells
  | done {inner : ScopeId} {condition : Expr} {body : Stmt} {cells : Cells} :
    condition.eval c P (cells.state c) = .ok (.bool false) →
    ExecLoop c P inner condition body cells .normal cells
  | next {inner : ScopeId} {condition : Expr} {body : Stmt} {cells cells₁ cells' : Cells}
      {r r' : Completion} :
    condition.eval c P (cells.state c) = .ok (.bool true) → Exec c P inner body cells r cells₁ →
    r.goesOn = true → ExecLoop c P inner condition body cells₁ r' cells' →
    ExecLoop c P inner condition body cells r' cells'
  | broken {inner : ScopeId} {condition : Expr} {body : Stmt} {cells cells' : Cells} :
    condition.eval c P (cells.state c) = .ok (.bool true) →
    Exec c P inner body cells .broken cells' →
    ExecLoop c P inner condition body cells .normal cells'
  | ended {inner : ScopeId} {condition : Expr} {body : Stmt} {cells cells' : Cells}
      {e : Ending} :
    condition.eval c P (cells.state c) = .ok (.bool true) →
    Exec c P inner body cells (.ended e) cells' →
    ExecLoop c P inner condition body cells (.ended e) cells'

/-- Statements one after another, up to the first that does not complete normally. -/
inductive ExecList (c : Context) (P : Platform) :
    ScopeId → List Stmt → Cells → Completion → Cells → Prop where
  | nil {scope : ScopeId} {cells : Cells} : ExecList c P scope [] cells .normal cells
  | cons {scope : ScopeId} {s : Stmt} {ss : List Stmt} {cells cells₁ cells' : Cells}
      {r : Completion} :
    Exec c P scope s cells .normal cells₁ → ExecList c P scope ss cells₁ r cells' →
    ExecList c P scope (s :: ss) cells r cells'
  | abrupt {scope : ScopeId} {s : Stmt} {ss : List Stmt} {cells cells' : Cells}
      {r : Completion} :
    Exec c P scope s cells r cells' → r ≠ .normal → ExecList c P scope (s :: ss) cells r cells'

end

/-- A method from its first statement to its end; a void method may run off its end. -/
inductive MethodExec (c : Context) (P : Platform) (m : MethodDecl) :
    Cells → Ending → Cells → Prop where
  | ended {scope : ScopeId} {cells cells' : Cells} {e : Ending} :
    c.scopes.methodScopes.get? m.id = some scope →
    ExecList c P scope m.body cells (.ended e) cells' → MethodExec c P m cells e cells'
  | offEnd {scope : ScopeId} {cells cells' : Cells} :
    c.scopes.methodScopes.get? m.id = some scope → m.returnType.isVoid = true →
    ExecList c P scope m.body cells .normal cells' →
    MethodExec c P m cells (.returned none) cells'

/-! ## Bodies over variables -/

/-- A node of an expression over numbers, truth values and variables; no strings are joined. -/
def Expr.isScalar (c : Context) : Expr → Bool
  | .literal _ (.int _) | .literal _ (.bool _) => true
  | .var node _ =>
    match c.references.get? node.id with
    | some (.variable _) => true
    | _ => false
  | .binary _ (.arith op) left _ => !c.joins op left
  | .binary .. | .unary .. | .paren .. => true
  | _ => false

/-- Every expression of the body is over numbers, truth values and variables. -/
def MethodDecl.IsScalar (m : MethodDecl) (c : Context) : Prop :=
  ∀ e ∈ Stmt.exprsOfList m.body, e.isScalar c = true

theorem Expr.isPlain_of_isScalar {c : Context} {e : Expr}
    (h : ∀ x ∈ e.nodes, x.isScalar c = true) : e.IsPlain := by
  intro x hx
  have hscalar := h x hx
  cases x with
  | staticCall | ownCall | methodCall | newObject | newArray => cases hscalar
  | literal | var | field | index | this | length | binary | unary | paren => exact ⟨rfl, rfl⟩

theorem Expr.exists_variable_of_isScalar {c : Context} {node : Node} {name : Ident}
    (h : (Expr.var node name).isScalar c = true) :
    ∃ scope, c.references.get? node.id = some (.variable scope) := by
  rw [isScalar] at h
  split at h
  · next scope href => exact ⟨scope, href⟩
  · cases h

/-- The operand of a statement is among its expressions. -/
theorem Stmt.nodes_subset_exprs {s : Stmt} {e : Expr} (h : s.operand? = some e) :
    e.nodes ⊆ s.exprs := by
  cases s with
  | call | loop | breakLoop | continueLoop | block => cases h
  | assign _ target value =>
    obtain rfl : value = e := Option.some.inj h
    exact List.subset_append_right ..
  | ret _ value =>
    obtain rfl : value = some e := h
    exact List.Subset.refl _
  | declare _ _ _ init =>
    obtain rfl : init = some e := h
    exact List.Subset.refl _
  | ifThen _ condition body =>
    obtain rfl : condition = e := Option.some.inj h
    exact List.subset_append_left ..
  | ifElse _ condition thenBranch elseBranch =>
    obtain rfl : condition = e := Option.some.inj h
    exact fun x hx => List.mem_append_left _ (List.mem_append_left _ hx)

/-! ## Running off the end -/

/-- A return does not complete normally. -/
theorem Exec.ne_normal_of_ret {c : Context} {P : Platform} {scope : ScopeId} {node : Node}
    {value : Option Expr} {cells cells' : Cells} {r : Completion}
    (h : Exec c P scope (.ret node value) cells r cells') : r ≠ .normal := by
  cases h <;> simp

/-- Nor do statements that end with one. -/
theorem ExecList.ne_normal_of_getLast? {c : Context} {P : Platform} {scope : ScopeId}
    {ss : List Stmt} {cells cells' : Cells} {r : Completion}
    (h : ExecList c P scope ss cells r cells') {node : Node} {value : Option Expr}
    (hlast : ss.getLast? = some (.ret node value)) : r ≠ .normal := by
  match h with
  | .nil => cases hlast
  | .abrupt _ hr => exact hr
  | @ExecList.cons _ _ _ s ss _ _ _ _ hfirst hrest =>
    cases ss with
    | nil =>
      obtain rfl : s = .ret node value := Option.some.inj hlast
      exact absurd rfl hfirst.ne_normal_of_ret
    | cons s' ss => exact hrest.ne_normal_of_getLast? (by simpa using hlast)

end IcLir
