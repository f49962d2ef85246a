import IcLir.Proofs.Interpreter
import IcLir.Proofs.WellTyped

/-
  Where the lines of lowered code come from. What lowering adds for a node itself, next to the
  code of its parts, are a few lines and an operand (`Own`). Other lines only use the operands of
  the parts. A `Marking` is a property of lines that is passed on in this way: a line has it
  because an operand that the line takes has it, or because the node has it that the line is
  emitted for. So code is marked exactly if one of the nodes is (`Lowered.marked_iff`), and the
  code of statements also where a local with a marked slot gets its initial value
  (`LoweredStmts.marked_iff`).
-/

namespace IcLir

/-- What is assigned to is a location, and what stands alone is a call. -/
def Stmt.isFormed : Stmt → Bool
  | .assign _ target _ => target.isLocation
  | .call _ e => e.isCall
  | _ => true

/-! ## Places -/

theorem ScopeTree.BranchOf.branchScope?_eq {t : ScopeTree} {scope inner : ScopeId} {body : Stmt}
    (h : t.BranchOf scope body inner) : t.branchScope? scope body = some inner := by
  unfold BranchOf at h
  unfold branchScope?
  split at h
  · next hd => rw [if_pos hd]; exact h.get?
  · next hd => rw [if_neg hd, h]

namespace Typing

variable {env : MethodEnv}

mutual

/-- A statement is well typed where it stands. -/
theorem WellTyped.of_mem_places (h : WellTyped t env inLoop scope s)
    (hx : x ∈ s.places env.scopes scope) :
    x.2.exprs ⊆ s.exprs ∧ ∃ inLoop', WellTyped t env inLoop' x.1 x.2 := by
  by_cases hself : x = (scope, s)
  · rw [hself]
    exact ⟨List.Subset.refl _, inLoop, h⟩
  match h with
  | .assign .. | .call .. | .retNothing .. | .retValue .. | .breakLoop | .continueLoop
  | .declare .. | .declareValue .. =>
    rw [Stmt.places] at hx
    exact absurd (List.mem_singleton.mp hx) hself
  | .ifThen _ hb hbody | .loop _ hb hbody =>
    rw [Stmt.places, hb.branchScope?_eq] at hx
    obtain ⟨hexprs, hx'⟩ := hbody.of_mem_places ((List.mem_cons.mp hx).resolve_left hself)
    exact ⟨fun e he => List.mem_append_right _ (hexprs he), hx'⟩
  | .ifElse _ hb hthen hb' helse =>
    rw [Stmt.places, hb.branchScope?_eq, hb'.branchScope?_eq] at hx
    rcases List.mem_append.mp ((List.mem_cons.mp hx).resolve_left hself) with hx | hx
    · obtain ⟨hexprs, hx'⟩ := hthen.of_mem_places hx
      exact ⟨fun e he => List.mem_append_left _ (List.mem_append_right _ (hexprs he)), hx'⟩
    · obtain ⟨hexprs, hx'⟩ := helse.of_mem_places hx
      exact ⟨fun e he => List.mem_append_right _ (hexprs he), hx'⟩
  | .block hb hstmts =>
    rw [Stmt.places, hb.get?] at hx
    exact hstmts.of_mem_placesOfList ((List.mem_cons.mp hx).resolve_left hself)

theorem WellTypedList.of_mem_placesOfList (h : WellTypedList t env inLoop scope ss)
    (hx : x ∈ Stmt.placesOfList env.scopes scope ss) :
    x.2.exprs ⊆ Stmt.exprsOfList ss ∧ ∃ inLoop', WellTyped t env inLoop' x.1 x.2 := by
  match h with
  | .nil =>
    rw [Stmt.placesOfList] at hx
    exact absurd hx List.not_mem_nil
  | .cons hfirst hrest =>
    rw [Stmt.placesOfList] at hx
    rcases List.mem_append.mp hx with hx | hx
    · obtain ⟨hexprs, hx'⟩ := hfirst.of_mem_places hx
      exact ⟨fun e he => List.mem_append_left _ (hexprs he), hx'⟩
    · obtain ⟨hexprs, hx'⟩ := hrest.of_mem_placesOfList hx
      exact ⟨fun e he => List.mem_append_right _ (hexprs he), hx'⟩

end

/-- Statements that are well typed have the right parts. -/
theorem WellTypedList.isFormed_of_mem_nodes {t : Typing} {inLoop : Bool} {scope : ScopeId}
    {ss : List Stmt} (h : WellTypedList t env inLoop scope ss) {x : Stmt}
    (hx : x ∈ Stmt.nodesOfList ss) : x.isFormed = true := by
  rw [← Stmt.map_snd_placesOfList env.scopes ss scope] at hx
  obtain ⟨place, hplace, rfl⟩ := List.mem_map.mp hx
  obtain ⟨_, _, htyped⟩ := h.of_mem_placesOfList hplace
  generalize place.2 = stmt at htyped ⊢
  cases htyped with
  | assign hlocation _ _ _ => exact hlocation
  | call hcall _ => exact hcall
  | _ => rfl

end Typing

/-! ## Nodes and their lines -/

namespace Lowering

open Code

/-- The lines that are emitted for an expression itself, and the operands that it brings in. -/
inductive Own (env : LowerEnv) : Expr → Code → List Operand → Prop where
  | literal {node : Node} {value : Literal} {s s' : Supply} {o : Operand} :
    literalOperand value s = .ok o s' → Own env (.literal node value) [] [o]
  | var {node : Node} {name : Ident} {scope : ScopeId} :
    env.context.references.get? node.id = some (.variable scope) →
    Own env (.var node name) [] [env.slot scope name.name]
  | ownField {node : Node} {name : Ident} {scope : ScopeId} {d offset : Nat} :
    env.context.references.get? node.id = some (.field scope) →
    env.HasOffset env.type name.name offset →
    Own env (.var node name) [.instr (.move .receiver (.r d))] [.field d offset]
  | field {node : Node} {object : Expr} {name : Ident} {type : TypeId} {d offset : Nat} :
    env.HasOffset type name.name offset →
    Own env (.field node object name) [Guard.nullRef.call [d]] [.field d offset]
  | index {node : Node} {array i : Expr} {a b : Nat} :
    Own env (.index node array i) [Guard.nullRef.call [a], Guard.arrayAccess.call [a, b]]
      [.element a b]
  | staticCall {node : Node} {className method : Ident} {args : List Expr} {type : TypeId}
      {callee : Callee} {d : Nat} {s s' : Supply} {line : Line} :
    env.context.types.class? className.name = some type →
    env.callee type method.name s = .ok callee s →
    env.staticCallLine callee method.name d s' = .ok line s' →
    Own env (.staticCall node className method args) [line] []
  | ownStatic {node : Node} {method : Ident} {args : List Expr} {callee : Callee} {d : Nat}
      {s s' : Supply} {line : Line} :
    env.callee env.type method.name s = .ok callee s → callee.kind.isStatic = true →
    env.staticCallLine callee method.name d s' = .ok line s' →
    Own env (.ownCall node method args) [line] []
  | ownVirtual {node : Node} {method : Ident} {args : List Expr} {callee : Callee} {d : Nat}
      {s s' : Supply} {line : Line} :
    env.callee env.type method.name s = .ok callee s → callee.kind.isStatic = false →
    env.virtualCallLine callee d s' = .ok line s' →
    Own env (.ownCall node method args) [.instr (.move .receiver (.r d)), line] []
  | methodCall {node : Node} {receiver : Expr} {method : Ident} {args : List Expr}
      {type : TypeId} {callee : Callee} {d : Nat} {s s' : Supply} {line : Line} :
    env.context.exprTypes.get? receiver.id = some type →
    env.callee type method.name s = .ok callee s →
    env.virtualCallLine callee d s' = .ok line s' →
    Own env (.methodCall node receiver method args) [Guard.nullRef.call [d], line] []
  | this {node : Node} : Own env (.this node) [] [.receiver]
  | newObject {node : Node} {className : Ident} {type : TypeId} {layout : ClassLayout} {d : Nat} :
    env.context.types.class? className.name = some type →
    env.context.layouts.get? type = some layout →
    Own env (.newObject node className)
      [libraryCall "__allocateObject" [.int layout.objectSize] d,
        .instr (.move (.label layout.dispatchLabel) (.field d 0))] []
  | newArray {node : Node} {element : TypeExpr} {size : Expr} {d : Nat} :
    Own env (.newArray node element size)
      [.instr (.arith .mul (.int 4) (.general d)), Guard.size.call [d],
        libraryCall "__allocateArray" [.r d] d] []
  | length {node : Node} {array : Expr} {d : Nat} :
    Own env (.length node array)
      [Guard.nullRef.call [d], .instr (.arrayLength (.general d) (.general d))] []
  | logic {node : Node} {op : LogicOp} {left right : Expr} :
    Own env (.binary node (.logic op) left right) [] []
  | compare {node : Node} {op : CompareOp} {left right : Expr} :
    Own env (.binary node (.compare op) left right) [] []
  | concat {node : Node} {op : ArithOp} {left right : Expr} {s : Supply} {l r d : Nat} :
    env.isConcat (.arith op) left s = .ok true s →
    Own env (.binary node (.arith op) left right) [libraryCall "__stringCat" [.r l, .r r] d] []
  | arith {node : Node} {op : ArithOp} {left right : Expr} {s : Supply} {n : Nat} :
    env.isConcat (.arith op) left s = .ok false s →
    Own env (.binary node (.arith op) left right)
      (if op.divides then [Guard.zero.call [n]] else []) []
  | unary {node : Node} {op : UnaryOp} {operand : Expr} {d : Nat} :
    Own env (.unary node op operand) [.instr (unaryCode op d)] []
  | paren {node : Node} {inner : Expr} : Own env (.paren node inner) [] []

/-- A property of lines, of the operands that lines take and of the nodes that lines are emitted
    for, passed on from operands and nodes to lines. -/
structure Marking (env : LowerEnv) where
  line : Line → Prop
  operand : Operand → Prop
  node : Expr → Prop
  r : ∀ n, ¬ operand (.r n)
  int : ∀ i, ¬ operand (.int i)
  label : ∀ name, ¬ line (.label name)
  jump : ∀ condition (labels : LabelSet), ∀ target ∈
    [labels.trueLabel, labels.falseLabel, labels.endLabel, labels.conditionLabel],
    ¬ line (jumpLine condition target)
  load : ∀ o n, line (.instr (.move o (.r n))) ↔ operand o
  compare : ∀ o n, o.isIndirect = false →
    (line (.instr (.compare o (.general n))) ↔ operand o)
  arith : ∀ op o n, o.isIndirect = false →
    (line (.instr (.arith op o (.general n))) ↔ operand o)
  ret : ∀ o, o.isIndirect = false → (line (.instr (.ret o)) ↔ operand o)
  /-- What is stored is in a register, or a literal. -/
  storeSlot : ∀ src scope name, src.isIndirect = false → src.isSlot = false →
    (line (.instr (.move src (env.slot scope name))) ↔
      operand src ∨ operand (env.slot scope name))
  store : ∀ src e d s result s', src.isIndirect = false → src.isSlot = false →
    Lowered env e d s result s' → e.isLocation = true →
    (line (.instr (.move src result.2)) ↔ operand src ∨ operand result.2)
  own : ∀ e lines os, Own env e lines os →
    ((∃ l ∈ lines, line l) ∨ (∃ o ∈ os, operand o) ↔ node e)

namespace Marking

variable {env : LowerEnv} (M : Marking env)

def OnCode (code : Code) : Prop := ∃ l ∈ code, M.line l

/-- The operand counts with the code of an expression, since whatever takes it passes it on. -/
def OnResult (r : Code × Operand) : Prop := M.OnCode r.1 ∨ M.operand r.2

def OnNodes (es : List Expr) : Prop := ∃ e ∈ es, M.node e

/-- The local that a statement in its scope gives an initial value to has a marked slot. -/
def OnPlace : ScopeId × Stmt → Prop
  | (scope, .declare _ _ name (some _)) => M.operand (env.slot scope name.name)
  | _ => False

/-! ## The code of operations -/

@[simp] theorem onCode_nil : ¬ M.OnCode [] := by simp [OnCode]

@[simp] theorem onCode_cons {l : Line} {code : Code} :
    M.OnCode (l :: code) ↔ M.line l ∨ M.OnCode code := by simp [OnCode]

@[simp] theorem onCode_append {a b : Code} : M.OnCode (a ++ b) ↔ M.OnCode a ∨ M.OnCode b := by
  simp [OnCode, or_and_right, exists_or]

@[simp] theorem onNodes_nil : ¬ M.OnNodes [] := by simp [OnNodes]

@[simp] theorem onNodes_cons {e : Expr} {es : List Expr} :
    M.OnNodes (e :: es) ↔ M.node e ∨ M.OnNodes es := by simp [OnNodes]

@[simp] theorem onNodes_append {es es' : List Expr} :
    M.OnNodes (es ++ es') ↔ M.OnNodes es ∨ M.OnNodes es' := by
  simp [OnNodes, or_and_right, exists_or]

@[simp] theorem onCode_load {o : Operand} {n : Nat} : M.OnCode (Code.load o n) ↔ M.operand o := by
  unfold Code.load
  split
  · next hthere =>
    rw [show o = .r n from of_decide_eq_true hthere]
    simp [M.r]
  · simp [M.load]

theorem onCode_own {e : Expr} {lines : Code} {os : List Operand} (h : Own env e lines os) :
    M.OnCode lines ∨ (∃ o ∈ os, M.operand o) ↔ M.node e := M.own e lines os h

/-- A value in a register is marked by its code only. -/
theorem onResult_r {code : Code} {n : Nat} : M.OnResult (code, .r n) ↔ M.OnCode code := by
  simp [OnResult, M.r]

variable {l r : Code × Operand} {d : Nat}

theorem isIndirect_rightOperand (strategy : Strategy) (keep : Bool) (o : Operand) (n : Nat) :
    (rightOperand strategy keep o n).2.isIndirect = false := by
  unfold rightOperand
  split
  · next hkeep =>
    rw [Bool.and_eq_true] at hkeep
    cases o <;> simp_all [Operand.isIndirect, Operand.isLiteral, Operand.isSlot]
  · rfl

theorem isIndirect_right_operands (strategy : Strategy) (rightFirst keep : Bool) :
    (operands strategy rightFirst keep d l r).right.isIndirect = false := by
  cases rightFirst <;> exact isIndirect_rightOperand ..

theorem onCode_rightOperand (strategy : Strategy) (keep : Bool) (o : Operand) (n : Nat) :
    M.OnCode (rightOperand strategy keep o n).1 ∨ M.operand (rightOperand strategy keep o n).2 ↔
      M.operand o := by
  unfold rightOperand
  split <;> simp [M.r]

/-- Each operand is used where it is, or loaded. -/
theorem onCode_operands (strategy : Strategy) (rightFirst keep : Bool) :
    M.OnCode (operands strategy rightFirst keep d l r).code ∨
        M.operand (operands strategy rightFirst keep d l r).right ↔
      M.OnResult l ∨ M.OnResult r := by
  unfold OnResult
  cases rightFirst with
  | false =>
    simp only [operands, Bool.false_eq_true, if_false, onCode_append, onCode_load]
    rw [or_assoc, onCode_rightOperand]
    simp only [or_assoc]
  | true =>
    simp only [operands, if_true, onCode_append, onCode_load]
    rw [← onCode_rightOperand M strategy keep r.2 d]
    grind

theorem onCode_compareCode (op : CompareOp) (labels : LabelSet) {os : Operands}
    (h : os.right.isIndirect = false) :
    M.OnCode (compareCode op labels os d) ↔ M.OnCode os.code ∨ M.operand os.right := by
  have hjump := fun condition => M.jump condition labels
  simp only [jumpLine] at hjump
  simp [compareCode, M.compare _ _ h, M.load, M.int, M.label, hjump]

theorem onCode_logicCode (op : LogicOp) (labels : LabelSet) :
    M.OnCode (logicCode op labels l r d) ↔ M.OnResult l ∨ M.OnResult r := by
  have hjump := fun condition => M.jump condition labels
  simp only [jumpLine] at hjump
  cases op <;>
    simp [logicCode, logicTest, M.compare (.int 0) _ rfl, M.load, M.int, M.label, hjump, OnResult,
      or_assoc]

theorem onCode_conditionCode : M.OnCode (conditionCode r) ↔ M.OnResult r := by
  simp [conditionCode, M.compare (.int 0) _ rfl, M.int, OnResult]

theorem onCode_returnCode : M.OnCode (returnCode r) ↔ M.OnResult r := by
  unfold returnCode
  split
  · simp [M.ret (.r 0) rfl, M.r, OnResult]
  · next hdirect => simp [M.ret _ (Bool.eq_false_iff.mpr hdirect), OnResult]

theorem isIndirect_storeSource (strategy : Strategy) (o : Operand) :
    (storeSource strategy o).2.isIndirect = false ∧ (storeSource strategy o).2.isSlot = false := by
  unfold storeSource
  split
  · next hkeep =>
    rw [Bool.and_eq_true] at hkeep
    cases o <;> simp_all [Operand.isIndirect, Operand.isLiteral, Operand.isSlot]
  · exact ⟨rfl, rfl⟩

theorem onCode_storeSource (strategy : Strategy) (o : Operand) :
    M.OnCode (storeSource strategy o).1 ∨ M.operand (storeSource strategy o).2 ↔
      M.operand o := by
  unfold storeSource
  split <;> simp [M.r]

theorem onResult_indexCode {node : Node} {array i : Expr} (rightFirst : Bool) :
    M.OnResult (indexCode rightFirst l r d) ↔
      M.node (.index node array i) ∨ M.OnResult l ∨ M.OnResult r := by
  cases rightFirst with
  | false =>
    rw [← M.onCode_own (.index (a := d) (b := d + 1))]
    simp [indexCode, OnResult, or_assoc, or_comm, or_left_comm]
  | true =>
    rw [← M.onCode_own (.index (a := d + 1) (b := d))]
    simp [indexCode, OnResult, or_assoc, or_comm, or_left_comm]

/-- Strings are joined in registers, and so is what is divided by. -/
theorem onCode_operationCode {node : Node} {op : ArithOp} {left right : Expr} {s : Supply}
    {isConcat : Bool} (h : env.isConcat (.arith op) left s = .ok isConcat s) (strategy : Strategy)
    (rightFirst : Bool) :
    M.OnCode (operationCode isConcat op
        (operands strategy rightFirst (keepsRight isConcat op.divides) d l r) d) ↔
      M.node (.binary node (.arith op) left right) ∨ M.OnResult l ∨ M.OnResult r := by
  rw [← M.onCode_operands strategy rightFirst (keepsRight isConcat op.divides)]
  have hright := isIndirect_right_operands (d := d) (l := l) (r := r) strategy rightFirst
    (keepsRight isConcat op.divides)
  generalize hos : operands strategy rightFirst (keepsRight isConcat op.divides) d l r = os
    at hright ⊢
  cases isConcat with
  | false =>
    obtain ⟨n, hn⟩ : ∃ n, divisorGuard op os.right =
        if op.divides then [Guard.zero.call [n]] else [] := by
      cases hop : op.divides with
      | true =>
        obtain ⟨n, hn⟩ := exists_divisor strategy rightFirst d l r hop
        rw [hos] at hn
        exact ⟨n, by rw [hn, divisorGuard_r, hop]⟩
      | false => exact ⟨0, by simp [divisorGuard, hop]⟩
    rw [← M.onCode_own (.arith (n := n) h)]
    simp [operationCode, arithCode, hn, M.arith _ _ _ hright, M.r, or_comm, or_left_comm]
  | true =>
    obtain ⟨n, hn⟩ := exists_operands_right strategy rightFirst d l r
    rw [show operands _ _ false _ _ _ = os from hos] at hn
    rw [← M.onCode_own (.concat (l := os.left) (r := n) (d := d) h)]
    simp [operationCode, concatCode, hn, M.r, or_comm]

end Marking

/-! ## Expressions -/

variable {env : LowerEnv}

theorem Lowered.eq_r_of_isCall {e : Expr} {d : Nat} {s s' : Supply} {r : Code × Operand}
    (hr : Lowered env e d s r s') (h : e.isCall = true) : r.2 = .r d := by
  cases hr with
  | staticCall | ownStatic | ownVirtual | methodCall => rfl
  | _ => cases h

mutual

/-- The code of an expression is marked exactly if one of its nodes is. -/
theorem Lowered.marked_iff (M : Marking env) (h : Lowered env e d s r s') :
    M.OnResult r ↔ M.OnNodes e.nodes := by
  match h with
  | .literal hv => simp [Expr.nodes, ← M.onCode_own (.literal hv), Marking.OnResult]
  | .var href => simp [Expr.nodes, ← M.onCode_own (.var href), Marking.OnResult]
  | .ownField href ho =>
    simp [Expr.nodes, ← M.onCode_own (.ownField (d := d) href ho), Marking.OnResult]
  | .this => simp [Expr.nodes, ← M.onCode_own .this, Marking.OnResult]
  | .field hobject _ ho =>
    simp [Expr.nodes, ← M.onCode_own (.field (d := d) ho), Marking.OnResult,
      ← hobject.marked_iff M, or_assoc, or_comm, or_left_comm]
  | .index hpair =>
    simp only [Expr.nodes, Marking.onNodes_cons, ← hpair.marked_iff M]
    exact M.onResult_indexCode _
  | .staticCall hc hcallee hargs hline =>
    simp [Expr.nodes, ← M.onCode_own (.staticCall hc hcallee hline), Marking.OnResult, M.r,
      hargs.marked_iff M, or_comm]
  | .ownStatic hcallee hstatic hargs hline =>
    simp [Expr.nodes, ← M.onCode_own (.ownStatic hcallee hstatic hline), Marking.OnResult, M.r,
      hargs.marked_iff M, or_comm]
  | .ownVirtual hcallee hvirtual hargs hline =>
    simp [Expr.nodes, ← M.onCode_own (.ownVirtual hcallee hvirtual hline), Marking.OnResult, M.r,
      hargs.marked_iff M, or_assoc, or_comm]
  | .methodCall htype hcallee hobject hargs hline =>
    simp [Expr.nodes, ← M.onCode_own (.methodCall htype hcallee hline), Marking.OnResult, M.r,
      ← hobject.marked_iff M, hargs.marked_iff M, or_assoc, or_comm, or_left_comm]
  | .newObject hc hl =>
    simp [Expr.nodes, ← M.onCode_own (.newObject (d := d) hc hl), Marking.OnResult, M.r]
  | .newArray hsize =>
    simp [Expr.nodes, ← M.onCode_own (.newArray (d := d)), Marking.OnResult, M.r,
      ← hsize.marked_iff M, or_assoc, or_comm, or_left_comm]
  | .length harray =>
    simp [Expr.nodes, ← M.onCode_own (.length (d := d)), Marking.OnResult, M.r,
      ← harray.marked_iff M, or_assoc, or_comm, or_left_comm]
  | .logic hl hr =>
    rw [M.onResult_r, M.onCode_logicCode, hl.marked_iff M, hr.marked_iff M]
    simp [Expr.nodes, ← M.onCode_own .logic]
  | .compare hpair =>
    rw [M.onResult_r, M.onCode_compareCode _ _ (Marking.isIndirect_right_operands ..),
      M.onCode_operands, hpair.marked_iff M]
    simp [Expr.nodes, ← M.onCode_own .compare]
  | .arith hconcat hpair =>
    rw [M.onResult_r, M.onCode_operationCode hconcat, hpair.marked_iff M]
    exact (M.onNodes_cons).symm
  | .unary hoperand =>
    simp [Expr.nodes, ← M.onCode_own (.unary (d := d)), Marking.OnResult, M.r,
      ← hoperand.marked_iff M, or_comm, or_left_comm]
  | .paren hinner => simp [Expr.nodes, ← M.onCode_own .paren, hinner.marked_iff M]

theorem LoweredPair.marked_iff (M : Marking env)
    (h : LoweredPair env left right d s rightFirst l r s') :
    M.OnResult l ∨ M.OnResult r ↔ M.OnNodes (left.nodes ++ right.nodes) := by
  match h with
  | .leftFirst _ hl hr | .rightFirst _ hr hl =>
    rw [hl.marked_iff M, hr.marked_iff M, M.onNodes_append]

theorem LoweredArgs.marked_iff (M : Marking env) (h : LoweredArgs env es d s code s') :
    M.OnCode code ↔ M.OnNodes (Expr.nodesOfList es) := by
  match h with
  | .nil => simp [Expr.nodesOfList]
  | .cons he hes =>
    simp [Expr.nodesOfList, ← he.marked_iff M, hes.marked_iff M, Marking.OnResult, or_assoc]

end

/-! ## Statements -/

namespace Marking

variable (M : Marking env)

/-- A value is stored, from a register or as a literal. -/
theorem onCode_store (strategy : Strategy) (o dst : Operand)
    (h : ∀ src, src.isIndirect = false → src.isSlot = false →
      (M.line (.instr (.move src dst)) ↔ M.operand src ∨ M.operand dst)) :
    M.OnCode (storeSource strategy o).1 ∨
        M.line (.instr (.move (storeSource strategy o).2 dst)) ↔ M.operand o ∨ M.operand dst := by
  obtain ⟨hindirect, hslot⟩ := isIndirect_storeSource strategy o
  rw [h _ hindirect hslot, ← or_assoc, onCode_storeSource]

end Marking

mutual

/-- The code of statements is marked exactly if a node of an expression in them is, or the slot
    of a local that is given an initial value. -/
theorem LoweredStmt.marked_iff (M : Marking env) (hformed : ∀ x ∈ stmt.nodes, x.isFormed = true)
    (h : LoweredStmt env loops scope stmt s code s') :
    M.OnCode code ↔ M.OnNodes stmt.exprs ∨
      ∃ x ∈ stmt.places env.context.scopes scope, M.OnPlace x := by
  match h with
  | @LoweredStmt.assign _ _ _ node target value _ _ _ v t hv ht =>
    have hlocation : target.isLocation = true := hformed _ List.mem_cons_self
    have hstore := M.onCode_store env.strategy v.2 t.2 fun src hi hs =>
      M.store src _ _ _ _ _ hi hs ht hlocation
    have hcode : M.OnCode (v.1 ++ (storeSource env.strategy v.2).1 ++ t.1 ++
        [.instr (.move (storeSource env.strategy v.2).2 t.2)]) ↔ M.OnResult t ∨ M.OnResult v := by
      simp only [Marking.OnResult, Marking.onCode_append, Marking.onCode_cons, Marking.onCode_nil,
        or_false]
      grind
    rw [hcode, hv.marked_iff M, ht.marked_iff M]
    simp [Stmt.exprs, Stmt.places, Marking.OnPlace]
  | @LoweredStmt.call _ _ _ node e _ _ _ he =>
    have hcall : e.isCall = true := hformed _ List.mem_cons_self
    simp [Stmt.exprs, Stmt.places, Marking.OnPlace, ← he.marked_iff M, Marking.OnResult,
      he.eq_r_of_isCall hcall, M.r]
  | .retNothing =>
    simp [Stmt.exprs, Stmt.places, Marking.OnPlace, returnNothing, M.ret (.int 9999) rfl, M.int]
  | .retValue hr =>
    simp [Stmt.exprs, Stmt.places, Marking.OnPlace, M.onCode_returnCode, hr.marked_iff M]
  | .ifThen hr hinner hbody =>
    have hbody := hbody.marked_iff M fun x hx => hformed x (by simp [Stmt.nodes, hx])
    have hjump := M.jump (.when .eq) s.labels
    simp [Stmt.exprs, Stmt.places, hinner, Marking.OnPlace, M.onCode_conditionCode, hbody,
      hr.marked_iff M, M.label, hjump, or_assoc]
  | .ifElse hr hinner hthen hinner' helse =>
    have hthen := hthen.marked_iff M fun x hx => hformed x (by simp [Stmt.nodes, hx])
    have helse := helse.marked_iff M fun x hx => hformed x (by simp [Stmt.nodes, hx])
    have hjump := fun condition => M.jump condition s.labels
    simp [Stmt.exprs, Stmt.places, hinner, hinner', Marking.OnPlace, M.onCode_conditionCode,
      hthen, helse, hr.marked_iff M, M.label, hjump, or_and_right, exists_or, or_assoc,
      or_left_comm]
  | .loop hr hinner hbody =>
    have hbody := hbody.marked_iff M fun x hx => hformed x (by simp [Stmt.nodes, hx])
    have hjump := fun condition => M.jump condition s.labels
    simp [Stmt.exprs, Stmt.places, hinner, Marking.OnPlace, M.onCode_conditionCode, hbody,
      hr.marked_iff M, M.label, hjump, or_assoc]
  | .breakLoop htarget | .continueLoop htarget =>
    obtain ⟨labels, _, rfl⟩ := Option.map_eq_some_iff.mp htarget
    have hjump := M.jump .always labels
    simp [Stmt.exprs, Stmt.places, Marking.OnPlace, hjump]
  | .block hinner hstmts =>
    have hstmts := hstmts.marked_iff M fun x hx => hformed x (by simp [Stmt.nodes, hx])
    simp [Stmt.exprs, Stmt.places, hinner, Marking.OnPlace, hstmts]
  | .declare => simp [Stmt.exprs, Stmt.places, Marking.OnPlace]
  | @LoweredStmt.declareValue _ _ _ _ _ name _ _ _ r hr =>
    have hstore := M.onCode_store env.strategy r.2 (env.slot scope name.name) fun src hi hs =>
      M.storeSlot src scope name.name hi hs
    simp [Stmt.exprs, Stmt.places, Marking.OnPlace, ← hr.marked_iff M, Marking.OnResult, hstore,
      or_assoc]

theorem LoweredStmts.marked_iff (M : Marking env)
    (hformed : ∀ x ∈ Stmt.nodesOfList stmts, x.isFormed = true)
    (h : LoweredStmts env loops scope stmts s code s') :
    M.OnCode code ↔ M.OnNodes (Stmt.exprsOfList stmts) ∨
      ∃ x ∈ Stmt.placesOfList env.context.scopes scope stmts, M.OnPlace x := by
  match h with
  | .nil => simp [Stmt.exprsOfList, Stmt.placesOfList]
  | .cons hfirst hrest =>
    have hfirst := hfirst.marked_iff M fun x hx => hformed x (by simp [Stmt.nodesOfList, hx])
    have hrest := hrest.marked_iff M fun x hx => hformed x (by simp [Stmt.nodesOfList, hx])
    simp [Stmt.exprsOfList, Stmt.placesOfList, hfirst, hrest, or_and_right, exists_or, or_assoc,
      or_left_comm]

end

/-- The same if no slot of a local is marked. -/
theorem LoweredStmts.marked_iff_of_slots (M : Marking env)
    (hslots : ∀ scope name, ¬ M.operand (env.slot scope name)) {loops : Loops} {scope : ScopeId}
    {stmts : List Stmt} {s s' : Supply} {code : Code}
    (hformed : ∀ x ∈ Stmt.nodesOfList stmts, x.isFormed = true)
    (h : LoweredStmts env loops scope stmts s code s') :
    M.OnCode code ↔ M.OnNodes (Stmt.exprsOfList stmts) := by
  rw [h.marked_iff M hformed]
  refine or_iff_left ?_
  rintro ⟨x, _, hx⟩
  unfold Marking.OnPlace at hx
  split at hx
  · exact hslots _ _ hx
  · exact hx

end Lowering

end IcLir
