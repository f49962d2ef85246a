import IcLir.Proofs.Evaluation
import IcLir.Proofs.Lowered
import IcLir.Proofs.WrittenTypes

/-
  Running code that allocates and assigns. Objects and arrays are kept in the order in which
  they are allocated, so an address that is given out once leads to the same item from then on.
  Fields are only found in objects whose layout has them. An assignment evaluates its value
  first, then its target. Unless it is stuck, an expression without allocations runs as it is
  evaluated (`Expr.run_refines_eval`). No loop is run more than `limit` times; a run that is cut
  short there is `unfinished`, and a larger limit changes nothing else (`Stmt.run_upTo`).
-/

namespace IcLir

/-- The one value of type void. -/
def Value.unit : Value := .void Word.null

/-- What a place of the given type holds when it is allocated. -/
def Value.initial (type : TypeId) : Value :=
  if type = TypeId.int then .int 0
  else if type = TypeId.boolean then .bool false
  else if type = TypeId.void then .unit
  else .null

/-- The variables of a method, its receiver, and the items by their addresses. -/
structure Store where
  var : ScopeId → String → Value
  receiver : Value
  items : List Item

namespace Store

/-- The state that expressions are evaluated in. -/
def state (σ : Store) : State := ⟨σ.var, σ.receiver, fun a => σ.items[a]?⟩

def setVar (σ : Store) (scope : ScopeId) (name : String) (v : Value) : Store :=
  { σ with var := fun scope' name' =>
      if scope' = scope ∧ name' = name then v else σ.var scope' name' }

def push (σ : Store) (item : Item) : Store := { σ with items := σ.items ++ [item] }

def setItem (σ : Store) (a : Nat) (item : Item) : Store := { σ with items := σ.items.set a item }

end Store

abbrev Action := EStateM Fault Store

namespace Action

variable {α β : Type}

/-- Looks something up in the state. -/
def ask (f : State → Outcome α) : Action α := fun σ =>
  match f σ.state with
  | .ok a => .ok a σ
  | .error fault => .error fault σ

theorem ask_bind (f : State → Outcome α) (g : α → State → Outcome β) :
    (ask f >>= fun a => ask (g a)) = ask fun s => f s >>= fun a => g a s := by
  funext σ
  change EStateM.bind (ask f) (fun a => ask (g a)) σ = _
  unfold EStateM.bind ask
  dsimp only
  cases f σ.state <;> rfl

/-- A new item, at an address of its own. -/
def allocate (item : Item) : Action Value := fun σ => .ok (.ref σ.items.length) (σ.push item)

/-- Changes an element of an array, if the index lies within it. -/
def setElement (a : Nat) (index v : Value) : Action Unit := fun σ =>
  match σ.items[a]?, index with
  | some (.array type values), .int i =>
    if 0 ≤ i ∧ i < values.length then .ok () (σ.setItem a (.array type (values.set i.toNat v)))
    else .error (.guard .arrayAccess) σ
  | _, _ => .error .stuck σ

/-- `x` does as `y` does, or is stuck. -/
def Refines (x y : Action α) : Prop := ∀ σ, x σ = y σ ∨ ∃ σ', x σ = .error .stuck σ'

theorem Refines.refl (x : Action α) : Refines x x := fun _ => .inl rfl

theorem Refines.bind {x y : Action α} {f g : α → Action β} (h : Refines x y)
    (hf : ∀ a, Refines (f a) (g a)) : Refines (x >>= f) (y >>= g) := by
  intro σ
  change EStateM.bind x f σ = EStateM.bind y g σ ∨ ∃ σ', EStateM.bind x f σ = _
  unfold EStateM.bind
  rcases h σ with hx | ⟨σ', hx⟩
  · rw [hx]
    cases y σ with
    | ok a σ₁ => exact hf a σ₁
    | error fault σ₁ => exact .inl rfl
  · rw [hx]
    exact .inr ⟨σ', rfl⟩

end Action

open IcLir.Action

/-! ## Expressions -/

/-- The objects of the class have a field `name`. -/
def Context.hasField (c : Context) (owner : TypeId) (name : String) : Bool :=
  ((c.layouts.get? owner).bind fun l => l.offset? name).isSome

/-- A field of an object. -/
def Context.getField (c : Context) (a : Nat) (name : String) (σ : State) : Outcome Value :=
  match σ.heap a with
  | some (.object owner field) => if c.hasField owner name then .ok (field name) else .error .stuck
  | _ => .error .stuck

def Context.setField (c : Context) (a : Nat) (name : String) (v : Value) : Action Unit := fun σ =>
  match σ.items[a]? with
  | some (.object owner field) =>
    if c.hasField owner name then
      .ok () (σ.setItem a (.object owner fun name' => if name' = name then v else field name'))
    else .error .stuck σ
  | _ => .error .stuck σ

theorem Context.getField_refines (c : Context) (a : Nat) (name : String) :
    Refines (ask (c.getField a name)) (ask fun s => s.field a name) := by
  intro σ
  unfold ask getField State.field
  dsimp only
  cases σ.state.heap a with
  | none => exact .inl rfl
  | some item =>
    cases item with
    | array type values => exact .inl rfl
    | object owner field =>
      dsimp only
      by_cases hfield : c.hasField owner name = true
      · rw [if_pos hfield]
        exact .inl rfl
      · rw [if_neg hfield]
        exact .inr ⟨σ, rfl⟩

/-- The declared type of a member of a class. -/
def Context.memberType? (c : Context) (owner : TypeId) (name : String) : Option TypeId :=
  (c.scopes.classScopes.get? owner).bind fun scope =>
    (c.scopes.lookupMember scope name).map (·.type)

theorem Context.memberType?_eq {c : Context} {owner : TypeId} {scope : ScopeId} {name : String}
    {s : Symbol} (hscope : c.scopes.classScopes.get? owner = some scope)
    (hs : c.scopes.lookupMember scope name = some s) : c.memberType? owner name = some s.type := by
  rw [memberType?, hscope, Option.bind_some, hs]
  rfl

def Context.newObject (c : Context) (type : TypeId) : Item :=
  .object type fun name => ((c.memberType? type name).map Value.initial).getD .null

/-- An array with elements of a written type, unless its length is negative. -/
def Context.newArray (c : Context) (element : TypeExpr) (length : Value) : Action Value :=
  match length, c.types.denoted? element, c.types.denoted? element.arrayOf with
  | .int n, some element, some type =>
    if n < 0 then throw (.guard .size)
    else allocate (.array type (List.replicate n.toNat (.initial element)))
  | _, _, _ => throw .stuck

/-- The address of the receiver, which is never null. -/
def State.self (σ : State) : Outcome Nat :=
  match σ.receiver with
  | .ref a => .ok a
  | _ => .error .stuck

namespace Expr

/-- Without calls. -/
def IsCallFree (e : Expr) : Prop := ∀ x ∈ e.nodes, x.isCall = false

instance (e : Expr) : Decidable e.IsCallFree :=
  inferInstanceAs (Decidable (∀ x ∈ e.nodes, x.isCall = false))

@[simp]
def run (c : Context) (P : Platform) : Expr → Action Value
  | .literal _ value => pure value.value
  | .var node name =>
    match c.references.get? node.id with
    | some (.variable scope) => ask fun s => .ok (s.var scope name.name)
    | some (.field _) => do
      let a ← ask State.self
      ask (c.getField a name.name)
    | none => throw .stuck
  | .field _ object name => do
    let v ← run c P object
    let a ← ask fun _ => v.address
    ask (c.getField a name.name)
  | .index _ array i => do
    let v ← run c P array
    let a ← ask fun _ => v.address
    let j ← run c P i
    ask fun s => s.element a j
  | .length _ array => do
    let v ← run c P array
    let a ← ask fun _ => v.address
    ask fun s => do return .int (← s.values a).length
  | .binary _ (.logic op) left right => do
    let v ← run c P left
    let b ← ask fun _ => v.truth
    if b = op.settledBy then return .bool b
    else do
      let w ← run c P right
      ask fun _ => do return .bool (← w.truth)
  | .binary _ (.compare op) left right => do
    let v ← run c P left
    let w ← run c P right
    ask fun _ => op.apply v w
  | .binary _ (.arith op) left right => do
    let v ← run c P left
    let w ← run c P right
    ask fun _ => if c.joins op left then v.join P w else op.apply P v w
  | .unary _ op operand => do
    let v ← run c P operand
    ask fun _ => op.apply P v
  | .paren _ inner => run c P inner
  | .this _ => ask fun s => .ok s.receiver
  | .newObject _ className =>
    match c.types.class? className.name with
    | some type => allocate (c.newObject type)
    | none => throw .stuck
  | .newArray _ element size => do
    let v ← run c P size
    c.newArray element v
  | .staticCall .. | .ownCall .. | .methodCall .. => throw .stuck

/-- An expression that allocates nothing runs as it is evaluated. -/
theorem run_refines_eval (c : Context) (P : Platform) :
    ∀ e : Expr, e.IsPlain → Refines (e.run c P) (ask fun s => e.eval c P s)
  | .literal .., _ => .refl _
  | .this _, _ => .refl _
  | .var node name, _ => by
    rw [run]
    simp only [eval]
    match c.references.get? node.id with
    | none => exact .refl _
    | some (.variable _) => exact .refl _
    | some (.field _) =>
      have hself : (ask fun s => s.ownField name.name) =
          (ask State.self >>= fun a => ask fun s => s.field a name.name) := by
        rw [ask_bind]
        refine congrArg ask (funext fun s => ?_)
        unfold State.ownField State.self
        cases s.receiver <;> rfl
      rw [hself]
      exact (Refines.refl _).bind fun a => c.getField_refines a name.name
  | .field node object name, h => by
    have hobject := run_refines_eval c P object (h.mono (nodes_subset_field node object name))
    have heval : (ask fun s => (field node object name).eval c P s) =
        (ask fun s => object.eval c P s) >>= fun v =>
          (ask fun _ => v.address) >>= fun a => ask fun s => s.field a name.name := by
      simp only [ask_bind]
      rfl
    rw [heval, run]
    exact hobject.bind fun v => (Refines.refl _).bind fun a => c.getField_refines a name.name
  | .index node array i, h => by
    have harray := run_refines_eval c P array (h.mono (nodes_subset_index_left node array i))
    have hi := run_refines_eval c P i (h.mono (nodes_subset_index_right node array i))
    have heval : (ask fun s => (index node array i).eval c P s) =
        (ask fun s => array.eval c P s) >>= fun v => (ask fun _ => v.address) >>= fun a =>
          (ask fun s => i.eval c P s) >>= fun j => ask fun s => s.element a j := by
      simp only [ask_bind]
      rfl
    rw [heval, run]
    exact harray.bind fun v => (Refines.refl _).bind fun a => hi.bind fun j => .refl _
  | .length node array, h => by
    have harray := run_refines_eval c P array (h.mono (nodes_subset_length node array))
    have heval : (ask fun s => (length node array).eval c P s) =
        (ask fun s => array.eval c P s) >>= fun v => (ask fun _ => v.address) >>= fun a =>
          ask fun s => do return .int (← s.values a).length := by
      simp only [ask_bind]
      rfl
    rw [heval, run]
    exact harray.bind fun v => .refl _
  | .binary node op left right, h => by
    have hleft := run_refines_eval c P left (h.mono (nodes_subset_binary_left node left right op))
    have hright :=
      run_refines_eval c P right (h.mono (nodes_subset_binary_right node left right op))
    cases op with
    | logic op =>
      have heval : (ask fun s => (binary node (.logic op) left right).eval c P s) =
          (ask fun s => left.eval c P s) >>= fun v => (ask fun _ => v.truth) >>= fun b =>
            if b = op.settledBy then pure (.bool b)
            else (ask fun s => right.eval c P s) >>= fun w =>
              ask fun _ => do return .bool (← w.truth) := by
        -- whether the right operand is left alone is known from the left one
        have hrest : ∀ (b : Bool) (g : State → Outcome Value),
            (if b = op.settledBy then pure (.bool b) else ask g : Action Value) =
              ask fun s => if b = op.settledBy then .ok (.bool b) else g s := by
          intro b g
          split <;> rfl
        simp only [ask_bind, hrest]
        rfl
      rw [heval, run]
      refine hleft.bind fun v => (Refines.refl _).bind fun b => ?_
      split
      · exact .refl _
      · exact hright.bind fun w => .refl _
    | compare op =>
      have heval : (ask fun s => (binary node (.compare op) left right).eval c P s) =
          (ask fun s => left.eval c P s) >>= fun v => (ask fun s => right.eval c P s) >>= fun w =>
            ask fun _ => op.apply v w := by
        simp only [ask_bind]
        rfl
      rw [heval, run]
      exact hleft.bind fun v => hright.bind fun w => .refl _
    | arith op =>
      have heval : (ask fun s => (binary node (.arith op) left right).eval c P s) =
          (ask fun s => left.eval c P s) >>= fun v => (ask fun s => right.eval c P s) >>= fun w =>
            ask fun _ => if c.joins op left then v.join P w else op.apply P v w := by
        simp only [ask_bind]
        rfl
      rw [heval, run]
      exact hleft.bind fun v => hright.bind fun w => .refl _
  | .unary node op operand, h => by
    have hoperand := run_refines_eval c P operand (h.mono (nodes_subset_unary node operand op))
    have heval : (ask fun s => (unary node op operand).eval c P s) =
        (ask fun s => operand.eval c P s) >>= fun v => ask fun _ => op.apply P v := by
      simp only [ask_bind]
      rfl
    rw [heval, run]
    exact hoperand.bind fun v => .refl _
  | .paren node inner, h => run_refines_eval c P inner (h.mono (nodes_subset_paren node inner))
  | .newObject .., h | .newArray .., h => absurd (h _ (mem_nodes _)).2 (by simp [isAllocation])
  | .staticCall .., h | .ownCall .., h | .methodCall .., h =>
    absurd (h _ (mem_nodes _)).1 (by simp [isCall])

/-- The truth value of a condition. -/
def test (c : Context) (P : Platform) (e : Expr) : Action Bool := do
  let v ← e.run c P
  ask fun _ => v.truth

/-- Assigns to the place that a location stands for. -/
def assign (c : Context) (P : Platform) (v : Value) : Expr → Action Unit
  | .var node name =>
    match c.references.get? node.id with
    | some (.variable scope) => modify fun σ => σ.setVar scope name.name v
    | some (.field _) => do
      let a ← ask State.self
      c.setField a name.name v
    | none => throw .stuck
  | .field _ object name => do
    let o ← object.run c P
    let a ← ask fun _ => o.address
    c.setField a name.name v
  | .index _ array i => do
    let o ← array.run c P
    let a ← ask fun _ => o.address
    let j ← i.run c P
    setElement a j v
  | _ => throw .stuck

end Expr

/-! ## Statements -/

/-- How a statement completes. -/
inductive Flow where
  | normal
  | broken
  | continued
  | returned (v : Value)
  /-- A loop has run as often as it may. -/
  | unfinished
deriving DecidableEq, Repr, Inhabited

namespace Action

/-- Runs `body` as long as `test` holds, but no more often than given. -/
def loop (test : Action Bool) (body : Action Flow) : Nat → Action Flow
  | 0 => pure .unfinished
  | limit + 1 => do
    if ← test then
      match ← body with
      | .normal | .continued => loop test body limit
      | .broken => return .normal
      | .returned v => return .returned v
      | .unfinished => return .unfinished
    else return .normal

/-- Goes on in a scope that was opened for a block or a branch. -/
def inScope (scope : Option ScopeId) (f : ScopeId → Action Flow) : Action Flow :=
  match scope with
  | some inner => f inner
  | none => throw .stuck

/-- Goes on with `next` after a statement that completes normally. -/
def andThen (first next : Action Flow) : Action Flow := do
  match ← first with
  | .normal => next
  | flow => return flow

end Action

namespace Stmt

/-- Without calls. -/
def IsCallFree (s : Stmt) : Prop := ∀ x ∈ s.exprs, x.isCall = false

instance (s : Stmt) : Decidable s.IsCallFree :=
  inferInstanceAs (Decidable (∀ x ∈ s.exprs, x.isCall = false))

mutual

/-- The parts of an expression stand where it does. -/
theorem nodes_sublist_of_mem_exprs {s : Stmt} {e : Expr} (he : e ∈ s.exprs) :
    e.nodes.Sublist s.exprs := by
  match s with
  | .assign _ target value =>
    rcases List.mem_append.mp he with he | he
    · exact List.sublist_append_of_sublist_left (Expr.nodes_sublist_of_mem he)
    · exact List.sublist_append_of_sublist_right (Expr.nodes_sublist_of_mem he)
  | .call _ _ | .ret _ (some _) | .declare _ _ _ (some _) => exact Expr.nodes_sublist_of_mem he
  | .ret _ none | .declare _ _ _ none | .breakLoop _ | .continueLoop _ =>
    exact absurd he List.not_mem_nil
  | .ifThen _ condition body | .loop _ condition body =>
    rcases List.mem_append.mp he with he | he
    · exact List.sublist_append_of_sublist_left (Expr.nodes_sublist_of_mem he)
    · exact List.sublist_append_of_sublist_right (nodes_sublist_of_mem_exprs he)
  | .ifElse _ condition thenBranch elseBranch =>
    rcases List.mem_append.mp he with he | he
    · refine List.sublist_append_of_sublist_left ?_
      rcases List.mem_append.mp he with he | he
      · exact List.sublist_append_of_sublist_left (Expr.nodes_sublist_of_mem he)
      · exact List.sublist_append_of_sublist_right (nodes_sublist_of_mem_exprs he)
    · exact List.sublist_append_of_sublist_right (nodes_sublist_of_mem_exprs he)
  | .block _ stmts => exact nodes_sublist_of_mem_exprsOfList he

theorem nodes_sublist_of_mem_exprsOfList {ss : List Stmt} {e : Expr} (he : e ∈ exprsOfList ss) :
    e.nodes.Sublist (exprsOfList ss) := by
  match ss with
  | [] => exact absurd he List.not_mem_nil
  | s :: ss =>
    rcases List.mem_append.mp he with he | he
    · exact List.sublist_append_of_sublist_left (nodes_sublist_of_mem_exprs he)
    · exact List.sublist_append_of_sublist_right (nodes_sublist_of_mem_exprsOfList he)

end

theorem nodes_subset_of_mem_exprsOfList {ss : List Stmt} {e : Expr} (he : e ∈ exprsOfList ss) :
    e.nodes ⊆ exprsOfList ss :=
  (nodes_sublist_of_mem_exprsOfList he).subset

mutual

/-- The statements in a statement, each with the scope that it stands in. -/
def places (t : ScopeTree) : ScopeId → Stmt → List (ScopeId × Stmt)
  | scope, s@(.assign ..) => [(scope, s)]
  | scope, s@(.call ..) => [(scope, s)]
  | scope, s@(.ret ..) => [(scope, s)]
  | scope, s@(.ifThen _ _ body) =>
    (scope, s) :: places t ((t.branchScope? scope body).getD scope) body
  | scope, s@(.ifElse _ _ thenBranch elseBranch) =>
    (scope, s) :: (places t ((t.branchScope? scope thenBranch).getD scope) thenBranch ++
      places t ((t.branchScope? scope elseBranch).getD scope) elseBranch)
  | scope, s@(.loop _ _ body) =>
    (scope, s) :: places t ((t.branchScope? scope body).getD scope) body
  | scope, s@(.breakLoop _) => [(scope, s)]
  | scope, s@(.continueLoop _) => [(scope, s)]
  | scope, s@(.block node stmts) =>
    (scope, s) :: placesOfList t ((t.blockScopes.get? node.id).getD scope) stmts
  | scope, s@(.declare ..) => [(scope, s)]

def placesOfList (t : ScopeTree) : ScopeId → List Stmt → List (ScopeId × Stmt)
  | _, [] => []
  | scope, s :: ss => places t scope s ++ placesOfList t scope ss

end

mutual

/-- Every statement has its place. -/
theorem map_snd_places (t : ScopeTree) :
    ∀ (s : Stmt) (scope : ScopeId), (places t scope s).map Prod.snd = s.nodes
  | .assign .., _ | .call .., _ | .ret .., _ | .breakLoop _, _ | .continueLoop _, _
  | .declare .., _ => by
    simp [places, nodes]
  | .ifThen _ _ body, _ | .loop _ _ body, _ => by
    simp [places, nodes, map_snd_places t body]
  | .ifElse _ _ thenBranch elseBranch, _ => by
    simp [places, nodes, map_snd_places t thenBranch, map_snd_places t elseBranch]
  | .block _ stmts, _ => by
    simp [places, nodes, map_snd_placesOfList t stmts]

theorem map_snd_placesOfList (t : ScopeTree) :
    ∀ (ss : List Stmt) (scope : ScopeId),
      (placesOfList t scope ss).map Prod.snd = nodesOfList ss
  | [], _ => by
    simp [placesOfList, nodesOfList]
  | s :: ss, _ => by
    simp [placesOfList, nodesOfList, map_snd_places t s, map_snd_placesOfList t ss]

end

mutual

/-- The statement stands in the given scope. -/
def run (c : Context) (P : Platform) (limit : Nat) : ScopeId → Stmt → Action Flow
  | _, .assign _ target value => do
    let v ← value.run c P
    target.assign c P v
    return .normal
  | _, .call _ e => do
    let _ ← e.run c P
    return .normal
  | _, .ret _ none => return .returned .unit
  | _, .ret _ (some value) => return .returned (← value.run c P)
  | scope, .ifThen _ condition body => do
    if ← condition.test c P then
      inScope (c.scopes.branchScope? scope body) fun inner => run c P limit inner body
    else return .normal
  | scope, .ifElse _ condition thenBranch elseBranch => do
    if ← condition.test c P then
      inScope (c.scopes.branchScope? scope thenBranch) fun inner => run c P limit inner thenBranch
    else
      inScope (c.scopes.branchScope? scope elseBranch) fun inner => run c P limit inner elseBranch
  | scope, .loop _ condition body =>
    inScope (c.scopes.branchScope? scope body) fun inner =>
      Action.loop (condition.test c P) (run c P limit inner body) limit
  | _, .breakLoop _ => return .broken
  | _, .continueLoop _ => return .continued
  | _, .block node stmts =>
    inScope (c.scopes.blockScopes.get? node.id) fun inner => runList c P limit inner stmts
  | _, .declare _ _ _ none => return .normal
  | scope, .declare _ _ name (some value) => do
    let v ← value.run c P
    modify fun σ => σ.setVar scope name.name v
    return .normal

def runList (c : Context) (P : Platform) (limit : Nat) : ScopeId → List Stmt → Action Flow
  | _, [] => return .normal
  | scope, s :: ss => andThen (run c P limit scope s) (runList c P limit scope ss)

end

end Stmt

/-! ## The limit -/

namespace Action

/-- `x` is cut short, or does as `y` does. -/
def UpTo (x y : Action Flow) : Prop := ∀ σ, (∃ σ', x σ = .ok .unfinished σ') ∨ x σ = y σ

variable {x y : Action Flow}

theorem UpTo.refl (x : Action Flow) : UpTo x x := fun _ => .inr rfl

theorem UpTo.bind_left {α : Type} (z : Action α) {f g : α → Action Flow}
    (h : ∀ a, UpTo (f a) (g a)) : UpTo (z >>= f) (z >>= g) := by
  intro σ
  change (∃ σ', EStateM.bind z f σ = _) ∨ EStateM.bind z f σ = EStateM.bind z g σ
  unfold EStateM.bind
  cases z σ with
  | ok a σ₁ => exact h a σ₁
  | error fault σ₁ => exact .inr rfl

theorem UpTo.bind (h : UpTo x y) {f g : Flow → Action Flow} (hf : ∀ flow, UpTo (f flow) (g flow))
    (hcut : f .unfinished = pure .unfinished) : UpTo (x >>= f) (y >>= g) := by
  intro σ
  change (∃ σ', EStateM.bind x f σ = _) ∨ EStateM.bind x f σ = EStateM.bind y g σ
  unfold EStateM.bind
  rcases h σ with ⟨σ', hx⟩ | hx
  · rw [hx]
    dsimp only
    rw [hcut]
    exact .inl ⟨σ', rfl⟩
  · rw [hx]
    cases y σ with
    | ok flow σ₁ => exact hf flow σ₁
    | error fault σ₁ => exact .inr rfl

theorem UpTo.loop (h : UpTo x y) (test : Action Bool) {limit limit' : Nat}
    (hlimit : limit ≤ limit') : UpTo (loop test x limit) (loop test y limit') := by
  induction limit generalizing limit' with
  | zero => exact fun σ => .inl ⟨σ, rfl⟩
  | succ limit ih =>
    obtain ⟨limit', rfl⟩ : ∃ n, limit' = n + 1 := ⟨limit' - 1, by omega⟩
    have hrest : UpTo (Action.loop test x limit) (Action.loop test y limit') := ih (by omega)
    refine UpTo.bind_left test fun b => ?_
    cases b with
    | false => exact .refl _
    | true =>
      refine h.bind (fun flow => ?_) rfl
      cases flow with
      | normal | continued => exact hrest
      | broken | returned | unfinished => exact .refl _

theorem UpTo.inScope {scope : Option ScopeId} {f g : ScopeId → Action Flow}
    (h : ∀ inner, UpTo (f inner) (g inner)) : UpTo (inScope scope f) (inScope scope g) := by
  cases scope with
  | none => exact .refl _
  | some inner => exact h inner

theorem UpTo.andThen (h : UpTo x y) {x' y' : Action Flow} (h' : UpTo x' y') :
    UpTo (andThen x x') (andThen y y') := by
  refine h.bind (fun flow => ?_) rfl
  cases flow with
  | normal => exact h'
  | broken | continued | returned | unfinished => exact .refl _

end Action

namespace Stmt

variable {c : Context} {P : Platform} {limit limit' : Nat}

mutual

/-- A larger limit changes nothing but where a run is cut short. -/
theorem run_upTo (h : limit ≤ limit') : ∀ (s : Stmt) (scope : ScopeId),
    UpTo (s.run c P limit scope) (s.run c P limit' scope)
  | .assign .., _ | .call .., _ | .ret _ none, _ | .ret _ (some _), _ | .breakLoop _, _
  | .continueLoop _, _ | .declare _ _ _ none, _ | .declare _ _ _ (some _), _ => by
    simp only [run]
    exact .refl _
  | .ifThen _ condition body, scope => by
    simp only [run]
    refine .bind_left _ fun b => ?_
    cases b with
    | true => exact .inScope (run_upTo h body)
    | false => exact .refl _
  | .ifElse _ condition thenBranch elseBranch, scope => by
    simp only [run]
    refine .bind_left _ fun b => ?_
    cases b with
    | true => exact .inScope (run_upTo h thenBranch)
    | false => exact .inScope (run_upTo h elseBranch)
  | .loop _ condition body, scope => by
    simp only [run]
    exact .inScope fun inner => (run_upTo h body inner).loop _ h
  | .block node stmts, scope => by
    simp only [run]
    exact .inScope (runList_upTo h stmts)

theorem runList_upTo (h : limit ≤ limit') : ∀ (ss : List Stmt) (scope : ScopeId),
    UpTo (runList c P limit scope ss) (runList c P limit' scope ss)
  | [], _ => by
    simp only [runList]
    exact .refl _
  | s :: ss, scope => by
    simp only [runList]
    exact (run_upTo h s scope).andThen (runList_upTo h ss scope)

end

end Stmt

end IcLir
