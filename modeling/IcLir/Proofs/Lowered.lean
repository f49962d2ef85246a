import IcLir.Lowering.Body
import IcLir.Proofs.Outcome

/-
  What lowering emits, as a relation: `Lowered env e d s r s'` says that `r` is the code and the
  operand of `e` at base register `d`, and that the supply goes from `s` to `s'`. There is one
  rule per form of expression and statement. Whatever lowering returns is related
  (`lowered_of_ok`, `loweredStmts_of_ok`), so that properties of the emitted code are shown by
  induction on the relation.
-/

namespace IcLir

namespace Supply

/-- The labels that are handed out next. -/
def labels (s : Supply) : LabelSet := ⟨s.nextLabel⟩

def next (s : Supply) : Supply := { s with nextLabel := s.nextLabel + 1 }

end Supply

/-- The scope of an if or while body that stands in `scope`. -/
def ScopeTree.branchScope? (t : ScopeTree) (scope : ScopeId) (body : Stmt) : Option ScopeId :=
  if body.isDeclaration then t.blockScopes.get? body.id else some scope

namespace LowerEnv

/-- The field `name` of class `type` lies at `offset`. -/
def HasOffset (env : LowerEnv) (type : TypeId) (name : String) (offset : Nat) : Prop :=
  ∃ layout, env.context.layouts.get? type = some layout ∧ layout.offset? name = some offset

/-- The slot of the variable `name` that is declared in `scope`. -/
def slot (env : LowerEnv) (scope : ScopeId) (name : String) : Operand :=
  .slot (Lowering.slotName name (env.context.scopes.depth scope))

end LowerEnv

namespace Lowering

/-! ## Expressions -/

mutual

inductive Lowered (env : LowerEnv) : Expr → Nat → Supply → Code × Operand → Supply → Prop where
  | literal {node : Node} {value : Literal} {d : Nat} {s s' : Supply} {o : Operand} :
    literalOperand value s = .ok o s' → Lowered env (.literal node value) d s ([], o) s'
  | var {node : Node} {name : Ident} {d : Nat} {s : Supply} {scope : ScopeId} :
    env.context.references.get? node.id = some (.variable scope) →
    Lowered env (.var node name) d s ([], env.slot scope name.name) s
  | ownField {node : Node} {name : Ident} {d offset : Nat} {s : Supply} {scope : ScopeId} :
    env.context.references.get? node.id = some (.field scope) →
    env.HasOffset env.type name.name offset →
    Lowered env (.var node name) d s ([.instr (.move .receiver (.r d))], .field d offset) s
  | field {node : Node} {object : Expr} {name : Ident} {d offset : Nat} {s s' : Supply}
      {r : Code × Operand} {type : TypeId} :
    Lowered env object d s r s' → env.context.exprTypes.get? object.id = some type →
    env.HasOffset type name.name offset →
    Lowered env (.field node object name) d s
      (r.1 ++ Code.load r.2 d ++ [Guard.nullRef.call [d]], .field d offset) s'
  | index {node : Node} {array i : Expr} {d : Nat} {s s' : Supply} {rightFirst : Bool}
      {left right : Code × Operand} :
    LoweredPair env array i d s rightFirst left right s' →
    Lowered env (.index node array i) d s (indexCode rightFirst left right d) s'
  | staticCall {node : Node} {className method : Ident} {args : List Expr} {d : Nat}
      {s s' : Supply} {type : TypeId} {callee : Callee} {code : Code} {line : Line} :
    env.context.types.class? className.name = some type →
    env.callee type method.name s = .ok callee s → LoweredArgs env args d s code s' →
    env.staticCallLine callee method.name d s' = .ok line s' →
    Lowered env (.staticCall node className method args) d s (code ++ [line], .r d) s'
  | ownStatic {node : Node} {method : Ident} {args : List Expr} {d : Nat} {s s' : Supply}
      {callee : Callee} {code : Code} {line : Line} :
    env.callee env.type method.name s = .ok callee s → callee.kind.isStatic = true →
    LoweredArgs env args d s code s' →
    env.staticCallLine callee method.name d s' = .ok line s' →
    Lowered env (.ownCall node method args) d s (code ++ [line], .r d) s'
  | ownVirtual {node : Node} {method : Ident} {args : List Expr} {d : Nat} {s s' : Supply}
      {callee : Callee} {code : Code} {line : Line} :
    env.callee env.type method.name s = .ok callee s → callee.kind.isStatic = false →
    LoweredArgs env args (d + 1) s code s' → env.virtualCallLine callee d s' = .ok line s' →
    Lowered env (.ownCall node method args) d s
      (.instr (.move .receiver (.r d)) :: code ++ [line], .r d) s'
  | methodCall {node : Node} {receiver : Expr} {method : Ident} {args : List Expr} {d : Nat}
      {s s₁ s' : Supply} {type : TypeId} {callee : Callee} {r : Code × Operand} {code : Code}
      {line : Line} :
    env.context.exprTypes.get? receiver.id = some type →
    env.callee type method.name s = .ok callee s → Lowered env receiver d s r s₁ →
    LoweredArgs env args (d + 1) s₁ code s' → env.virtualCallLine callee d s' = .ok line s' →
    Lowered env (.methodCall node receiver method args) d s
      (r.1 ++ Code.load r.2 d ++ [Guard.nullRef.call [d]] ++ code ++ [line], .r d) s'
  | this {node : Node} {d : Nat} {s : Supply} : Lowered env (.this node) d s ([], .receiver) s
  | newObject {node : Node} {className : Ident} {d : Nat} {s : Supply} {type : TypeId}
      {layout : ClassLayout} :
    env.context.types.class? className.name = some type →
    env.context.layouts.get? type = some layout →
    Lowered env (.newObject node className) d s
      ([libraryCall "__allocateObject" [.int layout.objectSize] d,
        .instr (.move (.label layout.dispatchLabel) (.field d 0))], .r d) s
  | newArray {node : Node} {element : TypeExpr} {size : Expr} {d : Nat} {s s' : Supply}
      {r : Code × Operand} :
    Lowered env size d s r s' →
    Lowered env (.newArray node element size) d s
      (r.1 ++ Code.load r.2 d ++
        [.instr (.arith .mul (.int 4) (.general d)), Guard.size.call [d],
         libraryCall "__allocateArray" [.r d] d], .r d) s'
  | length {node : Node} {array : Expr} {d : Nat} {s s' : Supply} {r : Code × Operand} :
    Lowered env array d s r s' →
    Lowered env (.length node array) d s
      (r.1 ++ Code.load r.2 d ++
        [Guard.nullRef.call [d], .instr (.arrayLength (.general d) (.general d))], .r d) s'
  | logic {node : Node} {op : LogicOp} {left right : Expr} {d : Nat} {s s₁ s' : Supply}
      {l r : Code × Operand} :
    Lowered env left d s.next l s₁ → Lowered env right d s₁ r s' →
    Lowered env (.binary node (.logic op) left right) d s (logicCode op s.labels l r d, .r d) s'
  | compare {node : Node} {op : CompareOp} {left right : Expr} {d : Nat} {s s' : Supply}
      {rightFirst : Bool} {l r : Code × Operand} :
    LoweredPair env left right d s.next rightFirst l r s' →
    Lowered env (.binary node (.compare op) left right) d s
      (compareCode op s.labels (operands env.strategy rightFirst true d l r) d, .r d) s'
  | arith {node : Node} {op : ArithOp} {left right : Expr} {d : Nat} {s s' : Supply}
      {isConcat rightFirst : Bool} {l r : Code × Operand} :
    env.isConcat (.arith op) left s = .ok isConcat s →
    LoweredPair env left right d s rightFirst l r s' →
    Lowered env (.binary node (.arith op) left right) d s
      (operationCode isConcat op
        (operands env.strategy rightFirst (keepsRight isConcat op.divides) d l r) d, .r d) s'
  | unary {node : Node} {op : UnaryOp} {operand : Expr} {d : Nat} {s s' : Supply}
      {r : Code × Operand} :
    Lowered env operand d s r s' →
    Lowered env (.unary node op operand) d s
      (r.1 ++ Code.load r.2 d ++ [.instr (unaryCode op d)], .r d) s'
  | paren {node : Node} {inner : Expr} {d : Nat} {s s' : Supply} {r : Code × Operand} :
    Lowered env inner d s r s' → Lowered env (.paren node inner) d s r s'

/-- Two operands, the one that is evaluated first at register `d` and the other above it. -/
inductive LoweredPair (env : LowerEnv) :
    Expr → Expr → Nat → Supply → Bool → Code × Operand → Code × Operand → Supply → Prop where
  | leftFirst {left right : Expr} {d : Nat} {s s₁ s' : Supply} {l r : Code × Operand} :
    env.strategy.rightFirst left right = false →
    Lowered env left d s l s₁ → Lowered env right (d + 1) s₁ r s' →
    LoweredPair env left right d s false l r s'
  | rightFirst {left right : Expr} {d : Nat} {s s₁ s' : Supply} {l r : Code × Operand} :
    env.strategy.rightFirst left right = true →
    Lowered env right d s r s₁ → Lowered env left (d + 1) s₁ l s' →
    LoweredPair env left right d s true l r s'

/-- Arguments, in consecutive registers. -/
inductive LoweredArgs (env : LowerEnv) :
    List Expr → Nat → Supply → Code → Supply → Prop where
  | nil {d : Nat} {s : Supply} : LoweredArgs env [] d s [] s
  | cons {e : Expr} {es : List Expr} {d : Nat} {s s₁ s' : Supply} {r : Code × Operand}
      {code : Code} :
    Lowered env e d s r s₁ → LoweredArgs env es (d + 1) s₁ code s' →
    LoweredArgs env (e :: es) d s (r.1 ++ Code.load r.2 d ++ code) s'

end

/-! ## Statements -/

/-- A condition in register 0, compared with false. -/
def conditionCode (r : Code × Operand) : Code :=
  r.1 ++ Code.load r.2 0 ++ [.instr (.compare (.int 0) (.general 0))]

/-- A value that is returned; one in memory is loaded first. -/
def returnCode (r : Code × Operand) : Code :=
  if r.2.isIndirect then r.1 ++ Code.load r.2 0 ++ [.instr (.ret (.r 0))]
  else r.1 ++ [.instr (.ret r.2)]

mutual

inductive LoweredStmt (env : LowerEnv) :
    Loops → ScopeId → Stmt → Supply → Code → Supply → Prop where
  | assign {loops : Loops} {scope : ScopeId} {node : Node} {target value : Expr}
      {s s₁ s' : Supply} {v t : Code × Operand} :
    Lowered env value 0 s v s₁ → Lowered env target 1 s₁ t s' →
    LoweredStmt env loops scope (.assign node target value) s
      (v.1 ++ (storeSource env.strategy v.2).1 ++ t.1 ++
        [.instr (.move (storeSource env.strategy v.2).2 t.2)]) s'
  | call {loops : Loops} {scope : ScopeId} {node : Node} {expr : Expr} {s s' : Supply}
      {r : Code × Operand} :
    Lowered env expr 0 s r s' → LoweredStmt env loops scope (.call node expr) s r.1 s'
  | retNothing {loops : Loops} {scope : ScopeId} {node : Node} {s : Supply} :
    LoweredStmt env loops scope (.ret node none) s [Code.returnNothing] s
  | retValue {loops : Loops} {scope : ScopeId} {node : Node} {value : Expr} {s s' : Supply}
      {r : Code × Operand} :
    Lowered env value 0 s r s' →
    LoweredStmt env loops scope (.ret node (some value)) s (returnCode r) s'
  | ifThen {loops : Loops} {scope inner : ScopeId} {node : Node} {condition : Expr} {body : Stmt}
      {s s₁ s' : Supply} {r : Code × Operand} {code : Code} :
    Lowered env condition 0 s.next r s₁ →
    env.context.scopes.branchScope? scope body = some inner →
    LoweredStmt env loops inner body s₁ code s' →
    LoweredStmt env loops scope (.ifThen node condition body) s
      (conditionCode r ++ [jumpLine (.when .eq) s.labels.endLabel] ++ code ++
        [.label s.labels.endLabel]) s'
  | ifElse {loops : Loops} {scope inner inner' : ScopeId} {node : Node} {condition : Expr}
      {thenBranch elseBranch : Stmt} {s s₁ s₂ s' : Supply} {r : Code × Operand}
      {code code' : Code} :
    Lowered env condition 0 s.next r s₁ →
    env.context.scopes.branchScope? scope thenBranch = some inner →
    LoweredStmt env loops inner thenBranch s₁ code s₂ →
    env.context.scopes.branchScope? scope elseBranch = some inner' →
    LoweredStmt env loops inner' elseBranch s₂ code' s' →
    LoweredStmt env loops scope (.ifElse node condition thenBranch elseBranch) s
      (conditionCode r ++ [jumpLine (.when .eq) s.labels.falseLabel] ++ code ++
        [jumpLine .always s.labels.endLabel, .label s.labels.falseLabel] ++ code' ++
        [.label s.labels.endLabel]) s'
  | loop {loops : Loops} {scope inner : ScopeId} {node : Node} {condition : Expr} {body : Stmt}
      {s s₁ s' : Supply} {r : Code × Operand} {code : Code} :
    Lowered env condition 0 s.next r s₁ →
    env.context.scopes.branchScope? scope body = some inner →
    LoweredStmt env (s.labels :: loops) inner body s₁ code s' →
    LoweredStmt env loops scope (.loop node condition body) s
      (.label s.labels.conditionLabel :: conditionCode r ++
        [jumpLine (.when .eq) s.labels.endLabel] ++ code ++
        [jumpLine .always s.labels.conditionLabel, .label s.labels.endLabel]) s'
  | breakLoop {loops : Loops} {scope : ScopeId} {node : Node} {s : Supply} {target : String} :
    loops.breakTarget? = some target →
    LoweredStmt env loops scope (.breakLoop node) s [jumpLine .always target] s
  | continueLoop {loops : Loops} {scope : ScopeId} {node : Node} {s : Supply}
      {target : String} :
    loops.continueTarget? = some target →
    LoweredStmt env loops scope (.continueLoop node) s [jumpLine .always target] s
  | block {loops : Loops} {scope inner : ScopeId} {node : Node} {stmts : List Stmt}
      {s s' : Supply} {code : Code} :
    env.context.scopes.blockScopes.get? node.id = some inner →
    LoweredStmts env loops inner stmts s code s' →
    LoweredStmt env loops scope (.block node stmts) s code s'
  | declare {loops : Loops} {scope : ScopeId} {node : Node} {type : TypeExpr} {name : Ident}
      {s : Supply} : LoweredStmt env loops scope (.declare node type name none) s [] s
  | declareValue {loops : Loops} {scope : ScopeId} {node : Node} {type : TypeExpr} {name : Ident}
      {value : Expr} {s s' : Supply} {r : Code × Operand} :
    Lowered env value 0 s r s' →
    LoweredStmt env loops scope (.declare node type name (some value)) s
      (r.1 ++ (storeSource env.strategy r.2).1 ++
        [.instr (.move (storeSource env.strategy r.2).2 (env.slot scope name.name))]) s'

inductive LoweredStmts (env : LowerEnv) :
    Loops → ScopeId → List Stmt → Supply → Code → Supply → Prop where
  | nil {loops : Loops} {scope : ScopeId} {s : Supply} : LoweredStmts env loops scope [] s [] s
  | cons {loops : Loops} {scope : ScopeId} {stmt : Stmt} {stmts : List Stmt} {s s₁ s' : Supply}
      {code code' : Code} :
    LoweredStmt env loops scope stmt s code s₁ → LoweredStmts env loops scope stmts s₁ code' s' →
    LoweredStmts env loops scope (stmt :: stmts) s (code ++ code') s'

end

/-! ## Lines of calls -/

section

open Pass

variable {env : LowerEnv} {callee : Callee} {line : Line} {name : String} {d : Nat}
  {s s' : Supply}

theorem eq_bindings {m : MethodDecl} {base : Nat} {bindings : List (String × Register)}
    (h : env.bindings m base s = .ok bindings s') :
    ∃ scope, env.context.scopes.methodScopes.get? m.id = some scope ∧
      bindings = m.params.zipIdx.map fun p =>
        (slotName p.1.name.name (env.context.scopes.depth scope), .general (base + p.2)) := by
  obtain ⟨scope, s₁, hpromised, hrest⟩ := bind_eq_ok.mp h
  obtain ⟨hscope, _⟩ := promised_eq_ok.mp hpromised
  obtain ⟨rfl, _⟩ := EStateM.Result.ok.inj hrest
  exact ⟨scope, hscope, rfl⟩

/-- What a static call comes to. -/
theorem eq_staticCallLine (h : env.staticCallLine callee name d s = .ok line s') :
    (callee.kind = .library ∧ line = .instr (.library s!"__{name}"
      ((List.range callee.method.params.length).map fun i => Operand.r (d + i))
      (callee.result d))) ∨
    (callee.kind ≠ .library ∧ ∃ bindings s₁, env.bindings callee.method d s = .ok bindings s₁ ∧
      line = .instr (.staticCall callee.entry.label bindings (callee.result d))) := by
  have hline : Meets CompileError.Any (env.staticCallLine callee name d) s fun line _ =>
      (callee.kind = .library ∧ line = .instr (.library s!"__{name}"
        ((List.range callee.method.params.length).map fun i => Operand.r (d + i))
        (callee.result d))) ∨
      (callee.kind ≠ .library ∧ ∃ bindings s₁, env.bindings callee.method d s = .ok bindings s₁ ∧
        line = .instr (.staticCall callee.entry.label bindings (callee.result d))) := by
    unfold LowerEnv.staticCallLine
    dsimp only
    split
    · next hkind => exact .inl ⟨hkind, rfl⟩
    all_goals
      next hkind =>
      rw [meets_bind]
      exact meets_any fun bindings s₁ hb => .inr ⟨by simp [hkind], bindings, s₁, hb, rfl⟩
  exact hline.of_ok h

theorem eq_virtualCallLine (h : env.virtualCallLine callee d s = .ok line s') :
    ∃ slot bindings s₁, callee.entry.slot = some slot ∧
      env.bindings callee.method (d + 1) s = .ok bindings s₁ ∧
      line = .instr (.virtualCall (.general d) slot bindings (callee.result d)) := by
  obtain ⟨slot, s₁, hpromised, hrest⟩ := bind_eq_ok.mp h
  obtain ⟨hslot, rfl⟩ := promised_eq_ok.mp hpromised
  obtain ⟨bindings, s₂, hbindings, hline⟩ := bind_eq_ok.mp hrest
  obtain ⟨rfl, _⟩ := EStateM.Result.ok.inj hline
  exact ⟨slot, bindings, s₂, hslot, hbindings, rfl⟩

end

/-! ## Operators -/

section

variable (strategy : Strategy) (rightFirst : Bool) (d : Nat) (l r : Code × Operand)

/-- A right operand that must not be kept is in a register. -/
theorem exists_operands_right : ∃ n, (operands strategy rightFirst false d l r).right = .r n := by
  cases rightFirst <;> exact ⟨_, rfl⟩

/-- A divisor is in a register. -/
theorem exists_divisor {op : ArithOp} (hop : op.divides = true) :
    ∃ n, (operands strategy rightFirst (keepsRight false op.divides) d l r).right = .r n := by
  rw [hop]
  exact exists_operands_right strategy rightFirst d l r

theorem divisorGuard_r (op : ArithOp) (n : Nat) :
    divisorGuard op (.r n) = if op.divides then [Guard.zero.call [n]] else [] := rfl

theorem divisorGuard_cases (op : ArithOp) (o : Operand) :
    divisorGuard op o = [] ∨ ∃ n, o = .r n ∧ divisorGuard op o = [Guard.zero.call [n]] := by
  unfold divisorGuard
  split
  · match o with
    | .reg (.general n) => exact .inr ⟨n, rfl, rfl⟩
    | .reg (.scratch _) | .reg .discard | .int _ | .label _ | .slot _ | .field .. | .element .. =>
      exact .inl rfl
  · exact .inl rfl

/-- Arithmetic has an instruction for each of its operators, and finds its divisor in a
    register. -/
theorem operation_arith (isConcat : Bool) (op : ArithOp) :
    operation isConcat (.arith op)
        (operands strategy rightFirst (keepsRight isConcat op.divides) d l r) d =
      pure (operationCode isConcat op
        (operands strategy rightFirst (keepsRight isConcat op.divides) d l r) d) := by
  cases isConcat with
  | true => rfl
  | false =>
    refine if_neg fun hmissing : (op.divides && _) = true => ?_
    obtain ⟨hop, hnone⟩ := (Bool.and_eq_true _ _).mp hmissing
    obtain ⟨n, hn⟩ := exists_divisor strategy rightFirst d l r hop
    rw [hn] at hnone
    exact absurd hnone Bool.false_ne_true

variable (env : LowerEnv) (node : Node) (left right : Expr)

theorem lowerExpr_compare (op : CompareOp) :
    lowerExpr env (.binary node (.compare op) left right) d = (do
      let rightFirst := env.strategy.rightFirst left right
      let labels ← freshLabels
      let (l, r) ← inOrder rightFirst (lowerExpr env left) (lowerExpr env right) d
      return (compareCode op labels (operands env.strategy rightFirst true d l r) d, .r d)) := rfl

theorem lowerExpr_arith (op : ArithOp) :
    lowerExpr env (.binary node (.arith op) left right) d = (do
      let rightFirst := env.strategy.rightFirst left right
      let isConcat ← env.isConcat (.arith op) left
      let (l, r) ← inOrder rightFirst (lowerExpr env left) (lowerExpr env right) d
      let keep := keepsRight isConcat op.divides
      return (operationCode isConcat op (operands env.strategy rightFirst keep d l r) d,
        .r d)) := by
  change (env.isConcat (.arith op) left >>= fun isConcat => _ >>= _) = _
  congr 1; funext isConcat
  congr 1; funext both
  change (operation isConcat (.arith op) (operands _ _ (keepsRight isConcat op.divides) _ _ _) d
    >>= _) = _
  rw [operation_arith]
  rfl

end

/-! ## What lowering returns is related -/

section

variable {env : LowerEnv} {s : Supply}

open Pass

theorem readsOnly_callee (type : TypeId) (name : String) : ReadsOnly (env.callee type name) := by
  refine .bind ?_ fun scope => .bind (readsOnly_promised _ _) fun symbol =>
    .bind (readsOnly_promised _ _) fun kind => .bind (readsOnly_promised _ _) fun method =>
    .bind (readsOnly_promised _ _) fun layout => .bind (readsOnly_promised _ _) fun entry =>
    readsOnly_pure _
  unfold LowerEnv.classScope
  split
  · exact readsOnly_pure _
  · exact fun _ => trivial

theorem readsOnly_bindings (m : MethodDecl) (base : Nat) : ReadsOnly (env.bindings m base) :=
  .bind (readsOnly_promised _ _) fun _ => readsOnly_pure _

theorem readsOnly_staticCallLine (callee : Callee) (name : String) (d : Nat) :
    ReadsOnly (env.staticCallLine callee name d) := by
  unfold LowerEnv.staticCallLine
  dsimp only
  split
  · exact readsOnly_pure _
  all_goals exact .bind (readsOnly_bindings _ _) fun _ => readsOnly_pure _

theorem readsOnly_virtualCallLine (callee : Callee) (d : Nat) :
    ReadsOnly (env.virtualCallLine callee d) :=
  .bind (readsOnly_promised _ _) fun _ => .bind (readsOnly_bindings _ _) fun _ => readsOnly_pure _

theorem readsOnly_isConcat (op : BinaryOp) (left : Expr) : ReadsOnly (env.isConcat op left) := by
  unfold LowerEnv.isConcat
  split
  · exact .bind (readsOnly_promised _ _) fun _ => readsOnly_pure _
  · exact readsOnly_pure _

theorem meets_hasOffset {type : TypeId} {name : String} {post : Nat → Supply → Prop}
    (h : ∀ offset, env.HasOffset type name offset → post offset s) :
    Meets CompileError.Any (env.fieldOffset type name) s post := by
  unfold LowerEnv.fieldOffset LowerEnv.layout
  rw [meets_bind]
  refine meets_promised_any fun layout hl => meets_promised_any fun offset ho => ?_
  exact h offset ⟨layout, hl, ho⟩

theorem loweredName (node : Node) (name : Ident) (d : Nat) :
    Meets CompileError.Any (lowerName env node name.name d) s fun r s' =>
      Lowered env (.var node name) d s r s' := by
  unfold lowerName
  rw [meets_bind]
  refine meets_promised_any fun resolution href => ?_
  match resolution with
  | .variable scope => exact .var href
  | .field scope =>
    dsimp only
    rw [meets_bind]
    exact meets_hasOffset fun offset ho => .ownField href ho

/-- Two operands, in the order that the strategy chooses. -/
theorem loweredPair_of {left right : Expr}
    (hleft : ∀ d s, Meets CompileError.Any (lowerExpr env left d) s fun r s' =>
      Lowered env left d s r s')
    (hright : ∀ d s, Meets CompileError.Any (lowerExpr env right d) s fun r s' =>
      Lowered env right d s r s') (d : Nat) (s : Supply) :
    Meets CompileError.Any
      (inOrder (env.strategy.rightFirst left right) (lowerExpr env left) (lowerExpr env right) d) s
      fun both s' =>
        LoweredPair env left right d s (env.strategy.rightFirst left right) both.1 both.2 s' := by
  unfold inOrder
  cases horder : env.strategy.rightFirst left right with
  | true =>
    refine (hright d s).bind fun r s₁ hr => ?_
    exact (hleft (d + 1) s₁).bind fun l s' hl => .rightFirst horder hr hl
  | false =>
    refine (hleft d s).bind fun l s₁ hl => ?_
    exact (hright (d + 1) s₁).bind fun r s' hr => .leftFirst horder hl hr

mutual

theorem loweredExpr (env : LowerEnv) (e : Expr) (d : Nat) (s : Supply) :
    Meets CompileError.Any (lowerExpr env e d) s fun r s' => Lowered env e d s r s' := by
  match e with
  | .literal _ value =>
    rw [lowerExpr, meets_bind]
    exact meets_any fun _ _ hv => .literal hv
  | .var node name =>
    rw [lowerExpr]
    exact loweredName node name d
  | .field _ object _ =>
    rw [lowerExpr]
    refine (loweredExpr env object d s).bind fun r s' hr => ?_
    dsimp only
    rw [meets_bind]
    refine meets_promised_any fun type htype => ?_
    rw [meets_bind]
    exact meets_hasOffset fun offset ho => .field hr htype ho
  | .index _ array i =>
    rw [lowerExpr]
    exact (loweredPair_of (loweredExpr env array) (loweredExpr env i) d s).bind
      fun _ _ hpair => .index hpair
  | .staticCall _ className method args =>
    rw [lowerExpr, meets_bind]
    refine meets_promised_any fun type hc => ?_
    rw [meets_bind]
    refine (readsOnly_callee type method.name).meets fun callee hcallee => ?_
    refine (loweredArgs env args d s).bind fun code s' hargs => ?_
    rw [meets_bind]
    refine (readsOnly_staticCallLine callee method.name d).meets fun line hline => ?_
    exact .staticCall hc hcallee hargs hline
  | .ownCall _ method args =>
    rw [lowerExpr, meets_bind]
    refine (readsOnly_callee env.type method.name).meets fun callee hcallee => ?_
    split
    · next hstatic =>
      refine (loweredArgs env args d s).bind fun code s' hargs => ?_
      rw [meets_bind]
      refine (readsOnly_staticCallLine callee method.name d).meets fun line hline => ?_
      exact .ownStatic hcallee hstatic hargs hline
    · next hvirtual =>
      rw [Bool.not_eq_true] at hvirtual
      refine (loweredArgs env args (d + 1) s).bind fun code s' hargs => ?_
      rw [meets_bind]
      refine (readsOnly_virtualCallLine callee d).meets fun line hline => ?_
      exact .ownVirtual hcallee hvirtual hargs hline
  | .methodCall _ receiver method args =>
    rw [lowerExpr, meets_bind]
    refine meets_promised_any fun type htype => ?_
    rw [meets_bind]
    refine (readsOnly_callee type method.name).meets fun callee hcallee => ?_
    refine (loweredExpr env receiver d s).bind fun r s₁ hr => ?_
    dsimp only
    refine (loweredArgs env args (d + 1) s₁).bind fun code s' hargs => ?_
    rw [meets_bind]
    refine (readsOnly_virtualCallLine callee d).meets fun line hline => ?_
    exact .methodCall htype hcallee hr hargs hline
  | .this _ => exact .this
  | .newObject _ className =>
    rw [lowerExpr, lowerNewObject, meets_bind]
    refine meets_promised_any fun type hc => ?_
    rw [meets_bind]
    exact meets_promised_any fun layout hl => .newObject hc hl
  | .newArray _ _ size =>
    rw [lowerExpr]
    exact (loweredExpr env size d s).bind fun _ _ hr => .newArray hr
  | .length _ array =>
    rw [lowerExpr]
    exact (loweredExpr env array d s).bind fun _ _ hr => .length hr
  | .binary _ (.logic _) left right =>
    rw [lowerExpr, meets_bind]
    change Meets CompileError.Any _ s.next _
    refine (loweredExpr env left d s.next).bind fun l s₁ hl => ?_
    exact (loweredExpr env right d s₁).bind fun r s' hr => .logic hl hr
  | .binary _ (.compare _) left right =>
    rw [lowerExpr_compare, meets_bind]
    change Meets CompileError.Any _ s.next _
    exact (loweredPair_of (loweredExpr env left) (loweredExpr env right) d s.next).bind
      fun _ _ hpair => .compare hpair
  | .binary _ (.arith op) left right =>
    rw [lowerExpr_arith, meets_bind]
    refine (readsOnly_isConcat (.arith op) left).meets fun isConcat hc => ?_
    exact (loweredPair_of (loweredExpr env left) (loweredExpr env right) d s).bind
      fun _ _ hpair => .arith hc hpair
  | .unary _ _ operand =>
    rw [lowerExpr]
    exact (loweredExpr env operand d s).bind fun _ _ hr => .unary hr
  | .paren _ inner =>
    rw [lowerExpr]
    exact (loweredExpr env inner d s).mono fun _ _ hr => .paren hr

theorem loweredArgs (env : LowerEnv) (es : List Expr) (d : Nat) (s : Supply) :
    Meets CompileError.Any (lowerArgs env es d) s fun code s' =>
      LoweredArgs env es d s code s' := by
  match es with
  | [] => exact .nil
  | e :: es =>
    rw [lowerArgs]
    refine (loweredExpr env e d s).bind fun r s₁ hr => ?_
    dsimp only
    exact (loweredArgs env es (d + 1) s₁).bind fun _ _ hargs => .cons hr hargs

end

theorem loweredCondition (env : LowerEnv) (condition : Expr) (s : Supply) :
    Meets CompileError.Any (lowerCondition env condition) s fun code s' =>
      ∃ r, Lowered env condition 0 s r s' ∧ code = conditionCode r := by
  unfold lowerCondition
  exact (loweredExpr env condition 0 s).bind fun r _ hr => ⟨r, hr, rfl⟩

theorem meets_branchScope? {scope : ScopeId} {body : Stmt} {post : ScopeId → Supply → Prop}
    (h : ∀ inner, env.context.scopes.branchScope? scope body = some inner → post inner s) :
    Meets CompileError.Any (env.branchScope scope body) s post := by
  unfold ScopeTree.branchScope? at h
  unfold LowerEnv.branchScope
  split
  · next hd =>
    rw [if_pos hd] at h
    exact meets_promised_any h
  · next hd =>
    rw [if_neg hd] at h
    exact h scope rfl

mutual

theorem loweredStmt (env : LowerEnv) (loops : Loops) (scope : ScopeId) (stmt : Stmt)
    (s : Supply) : Meets CompileError.Any (lowerStmt env loops scope stmt) s fun code s' =>
      LoweredStmt env loops scope stmt s code s' := by
  match stmt with
  | .assign _ target value =>
    rw [lowerStmt]
    refine (loweredExpr env value 0 s).bind fun v s₁ hv => ?_
    dsimp only
    exact (loweredExpr env target 1 s₁).bind fun t s' ht => .assign hv ht
  | .call _ expr =>
    rw [lowerStmt]
    exact (loweredExpr env expr 0 s).bind fun _ _ hr => .call hr
  | .ret _ none => exact .retNothing
  | .ret node (some value) =>
    rw [lowerStmt, lowerReturn]
    refine (loweredExpr env value 0 s).bind fun r s' hr => ?_
    have hret : LoweredStmt env loops scope (.ret node (some value)) s (returnCode r) s' :=
      .retValue hr
    unfold returnCode at hret
    dsimp only
    split
    · next hi => rw [if_pos hi] at hret; exact hret
    · next hi => rw [if_neg hi] at hret; exact hret
  | .ifThen _ condition body =>
    rw [lowerStmt, meets_bind]
    change Meets CompileError.Any _ s.next _
    refine (loweredCondition env condition s.next).bind ?_
    rintro _ s₁ ⟨r, hr, rfl⟩
    rw [meets_bind]
    refine meets_branchScope? fun inner hinner => ?_
    exact (loweredStmt env loops inner body s₁).bind fun _ _ hb => .ifThen hr hinner hb
  | .ifElse _ condition thenBranch elseBranch =>
    rw [lowerStmt, meets_bind]
    change Meets CompileError.Any _ s.next _
    refine (loweredCondition env condition s.next).bind ?_
    rintro _ s₁ ⟨r, hr, rfl⟩
    rw [meets_bind]
    refine meets_branchScope? fun inner hinner => ?_
    refine (loweredStmt env loops inner thenBranch s₁).bind fun _ s₂ ht => ?_
    rw [meets_bind]
    refine meets_branchScope? fun inner' hinner' => ?_
    exact (loweredStmt env loops inner' elseBranch s₂).bind fun _ _ he =>
      .ifElse hr hinner ht hinner' he
  | .loop _ condition body =>
    rw [lowerStmt, meets_bind]
    change Meets CompileError.Any _ s.next _
    refine (loweredCondition env condition s.next).bind ?_
    rintro _ s₁ ⟨r, hr, rfl⟩
    rw [meets_bind]
    refine meets_branchScope? fun inner hinner => ?_
    exact (loweredStmt env (s.labels :: loops) inner body s₁).bind fun _ _ hb =>
      .loop hr hinner hb
  | .breakLoop _ =>
    rw [lowerStmt, meets_bind]
    exact meets_promised_any fun _ ht => .breakLoop ht
  | .continueLoop _ =>
    rw [lowerStmt, meets_bind]
    exact meets_promised_any fun _ ht => .continueLoop ht
  | .block _ stmts =>
    rw [lowerStmt, meets_bind]
    refine meets_promised_any fun inner hinner => ?_
    exact (loweredStmts env loops inner stmts s).mono fun _ _ hb => .block hinner hb
  | .declare _ _ _ none => exact .declare
  | .declare _ _ _ (some value) =>
    rw [lowerStmt, lowerDeclaration]
    exact (loweredExpr env value 0 s).bind fun _ _ hr => .declareValue hr

theorem loweredStmts (env : LowerEnv) (loops : Loops) (scope : ScopeId) (stmts : List Stmt)
    (s : Supply) : Meets CompileError.Any (lowerStmts env loops scope stmts) s fun code s' =>
      LoweredStmts env loops scope stmts s code s' := by
  match stmts with
  | [] => exact .nil
  | stmt :: stmts =>
    rw [lowerStmts]
    refine (loweredStmt env loops scope stmt s).bind fun _ s₁ hs => ?_
    exact (loweredStmts env loops scope stmts s₁).bind fun _ _ hrest => .cons hs hrest

end

end

/-- What lowering an expression returns is what the rules say. -/
theorem lowered_of_ok {env : LowerEnv} {e : Expr} {d : Nat} {s s' : Supply} {r : Code × Operand}
    (h : lowerExpr env e d s = .ok r s') : Lowered env e d s r s' :=
  (loweredExpr env e d s).of_ok h

theorem loweredStmts_of_ok {env : LowerEnv} {loops : Loops} {scope : ScopeId} {stmts : List Stmt}
    {s s' : Supply} {code : Code} (h : lowerStmts env loops scope stmts s = .ok code s') :
    LoweredStmts env loops scope stmts s code s' :=
  (loweredStmts env loops scope stmts s).of_ok h

end Lowering

end IcLir
