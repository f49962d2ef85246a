import IcLir.Proofs.Evaluation

/-
  Evaluation in another order: a node with two operands may have its right operand evaluated
  first (`Expr.evalIn`). Values do not depend on the order (`toOption_evalIn`), and neither does
  whether a guard fails, but which guard fails first does. The guard is the same as from left to
  right if no node that has its operands exchanged has one failing apart from the other
  (`evalIn_eq_eval`).
-/

namespace IcLir

namespace Outcome

variable {α β : Type} {x : Outcome α} {y : Outcome β}

/-- Both operands, the right one first if `rightFirst`. -/
def both (rightFirst : Bool) (x : Outcome α) (y : Outcome β) (f : α → β → Outcome Value) :
    Outcome Value :=
  match rightFirst with
  | false => do
    let v ← x
    let w ← y
    f v w
  | true => do
    let w ← y
    let v ← x
    f v w

/-- Both outcomes are failed guards, and not of the same kind. -/
def FailApart (x : Outcome α) (y : Outcome β) : Prop :=
  ∃ g g', x = .error (.guard g) ∧ y = .error (.guard g') ∧ g ≠ g'

theorem toOption_bind (x : Outcome α) (f : α → Outcome β) :
    (x >>= f).toOption = x.toOption.bind fun v => (f v).toOption := by
  cases x <;> rfl

theorem toOption_both (rightFirst : Bool) (x : Outcome α) (y : Outcome β)
    (f : α → β → Outcome Value) :
    (both rightFirst x y f).toOption =
      x.toOption.bind fun v => y.toOption.bind fun w => (f v w).toOption := by
  cases rightFirst <;> cases x <;> cases y <;> rfl

/-- An outcome that is not stuck and has no value is a failed guard. -/
theorem exists_guard_iff (h : x ≠ .error .stuck) :
    (∃ g, x = .error (.guard g)) ↔ x.toOption = none := by
  match x with
  | .ok v => simp [Except.toOption]
  | .error .stuck => exact absurd rfl h
  | .error (.guard g) => exact ⟨fun _ => rfl, fun _ => ⟨g, rfl⟩⟩

theorem ne_stuck_of_bind {f : α → Outcome β} (h : (x >>= f) ≠ .error .stuck) :
    x ≠ .error .stuck := by
  intro hx
  rw [hx] at h
  exact h rfl

/-- An outcome with the same value, if any, goes on without getting stuck. -/
theorem bind_ne_stuck {x' : Outcome α} {f f' : α → Outcome β} (h : (x >>= f) ≠ .error .stuck)
    (hx : x'.toOption = x.toOption) (hx' : x' ≠ .error .stuck)
    (hf : ∀ v, f v ≠ .error .stuck → f' v ≠ .error .stuck) : (x' >>= f') ≠ .error .stuck := by
  cases x' with
  | ok v =>
    rw [eq_ok_of_toOption hx.symm] at h
    exact hf v h
  | error fault => exact fun hstuck => hx' (congrArg Except.error (Except.error.inj hstuck))

theorem both_ne_stuck {x' : Outcome α} {y' : Outcome β} {f : α → β → Outcome Value}
    (h : both false x y f ≠ .error .stuck) (hx : x'.toOption = x.toOption)
    (hy : y'.toOption = y.toOption) (hx' : x' ≠ .error .stuck) (hy' : y' ≠ .error .stuck)
    (rightFirst : Bool) : both rightFirst x' y' f ≠ .error .stuck := by
  have hleft : both false x' y' f ≠ .error .stuck :=
    bind_ne_stuck h hx hx' fun v hv => bind_ne_stuck hv hy hy' fun w hw => hw
  cases rightFirst with
  | false => exact hleft
  | true =>
    cases x' with
    | ok v => exact hleft
    | error fault =>
      cases y' with
      | ok w => exact hleft
      | error fault' => exact fun hstuck => hy' (congrArg Except.error (Except.error.inj hstuck))

/-- Operands that do not fail apart may be exchanged. -/
theorem both_eq_both_false {rightFirst : Bool} {f : α → β → Outcome Value}
    (hx : x ≠ .error .stuck) (hy : y ≠ .error .stuck)
    (h : rightFirst = true → ¬ FailApart x y) : both rightFirst x y f = both false x y f := by
  cases rightFirst with
  | false => rfl
  | true =>
    cases x with
    | ok v => cases y <;> rfl
    | error fault =>
      cases y with
      | ok w => rfl
      | error fault' =>
        cases fault with
        | stuck => exact absurd rfl hx
        | guard g =>
          cases fault' with
          | stuck => exact absurd rfl hy
          | guard g' =>
            have hsame : g = g' := Classical.byContradiction fun hne =>
              h rfl ⟨g, g', rfl, rfl, hne⟩
            rw [hsame]
            rfl

end Outcome

/-! ## Logical operations -/

namespace LogicOp

/-- What is left of the operation when the left operand does not settle it. -/
def rest (y : Outcome Value) : Outcome Value := do
  let w ← y
  let b ← w.truth
  return .bool b

theorem apply_eq (op : LogicOp) (x y : Outcome Value) :
    op.apply x y = x >>= fun v => v.truth >>= fun b =>
      if b = op.settledBy then pure (.bool b) else rest y := by
  unfold LogicOp.apply rest
  rfl

theorem toOption_apply (op : LogicOp) {x x' y y' : Outcome Value} (hx : x'.toOption = x.toOption)
    (hy : y'.toOption = y.toOption) : (op.apply x' y').toOption = (op.apply x y).toOption := by
  have hrest : (rest y').toOption = (rest y).toOption := by
    rw [rest, Outcome.toOption_bind, hy, rest, Outcome.toOption_bind]
  rw [apply_eq, apply_eq, Outcome.toOption_bind, hx, Outcome.toOption_bind]
  congr 1
  funext v
  rw [Outcome.toOption_bind, Outcome.toOption_bind]
  congr 1
  funext b
  split
  · rfl
  · exact hrest

theorem apply_ne_stuck {op : LogicOp} {x x' y y' : Outcome Value}
    (h : op.apply x y ≠ .error .stuck) (hx : x'.toOption = x.toOption)
    (hy : y'.toOption = y.toOption) (hx' : x' ≠ .error .stuck) (hy' : y' ≠ .error .stuck) :
    op.apply x' y' ≠ .error .stuck := by
  rw [apply_eq] at h ⊢
  refine Outcome.bind_ne_stuck h hx hx' fun v hv => ?_
  refine Outcome.bind_ne_stuck hv rfl (Outcome.ne_stuck_of_bind hv) fun b hb => ?_
  split
  · next hsettled =>
    rw [if_pos hsettled] at hb
    exact hb
  · next hsettled =>
    rw [if_neg hsettled] at hb
    exact Outcome.bind_ne_stuck hb hy hy' fun w hw => hw

end LogicOp

/-! ## Expressions -/

namespace Expr

open Outcome (both FailApart)

variable {order : Expr → Expr → Bool} {c : Context} {P : Platform} {σ : State}

/-- The value of an expression, where the right of two operands is evaluated first if `order`
    says so. An array belongs with its test for null. -/
def evalIn (order : Expr → Expr → Bool) (c : Context) (P : Platform) (σ : State) :
    Expr → Outcome Value
  | .field _ object name => do
    let v ← evalIn order c P σ object
    σ.field (← v.address) name.name
  | .index _ array i =>
    both (order array i) (evalIn order c P σ array >>= Value.address) (evalIn order c P σ i)
      σ.element
  | .length _ array => do
    let v ← evalIn order c P σ array
    return .int (← σ.values (← v.address)).length
  | .binary _ (.logic op) left right =>
    op.apply (evalIn order c P σ left) (evalIn order c P σ right)
  | .binary _ (.compare op) left right =>
    both (order left right) (evalIn order c P σ left) (evalIn order c P σ right) op.apply
  | .binary _ (.arith op) left right =>
    both (order left right) (evalIn order c P σ left) (evalIn order c P σ right) fun v w =>
      if c.joins op left then v.join P w else op.apply P v w
  | .unary _ op operand => do
    let v ← evalIn order c P σ operand
    op.apply P v
  | .paren _ inner => evalIn order c P σ inner
  | .literal _ value => .ok value.value
  | .var node name => (var node name).eval c P σ
  | .this _ => .ok σ.receiver
  | .staticCall .. | .ownCall .. | .methodCall .. | .newObject .. | .newArray .. => .error .stuck

theorem eval_index (n : Node) (array i : Expr) :
    (index n array i).eval c P σ =
      both false (array.eval c P σ >>= Value.address) (i.eval c P σ) σ.element := by
  rw [eval]
  cases array.eval c P σ <;> rfl

/-- From left to right. -/
theorem evalIn_false (e : Expr) : e.evalIn (fun _ _ => false) c P σ = e.eval c P σ := by
  fun_induction evalIn (fun _ _ => false) c P σ e with
  | case2 n array i iha ihi => rw [eval_index, iha, ihi]
  | case1 n object name ih | case3 n array ih | case7 n op operand ih | case8 n inner ih =>
    rw [ih, eval]
  | case4 n op left right ihl ihr => rw [ihl, ihr, eval]
  | case5 n op left right ihl ihr | case6 n op left right ihl ihr =>
    rw [ihl, ihr, eval]
    rfl
  | _ => rfl

/-- The value of an expression does not depend on the order. -/
theorem toOption_evalIn (e : Expr) :
    (e.evalIn order c P σ).toOption = (e.eval c P σ).toOption := by
  fun_induction evalIn order c P σ e with
  | case1 n object name ih | case3 n array ih | case7 n op operand ih =>
    rw [eval, Outcome.toOption_bind, ih, Outcome.toOption_bind]
  | case2 n array i iha ihi =>
    rw [eval_index, Outcome.toOption_both, Outcome.toOption_both, Outcome.toOption_bind, iha, ihi,
      Outcome.toOption_bind]
  | case4 n op left right ihl ihr =>
    rw [eval]
    exact op.toOption_apply ihl ihr
  | case5 n op left right ihl ihr | case6 n op left right ihl ihr =>
    rw [eval, Outcome.toOption_both, ihl, ihr]
    exact (Outcome.toOption_both false _ _ _).symm
  | case8 n inner ih => rw [eval, ih]
  | _ => rfl

theorem evalIn_eq_ok_iff {e : Expr} {v : Value} :
    e.evalIn order c P σ = .ok v ↔ e.eval c P σ = .ok v := by
  have hvalue : (e.evalIn order c P σ).toOption = (e.eval c P σ).toOption := toOption_evalIn e
  constructor
  · intro h
    rw [h] at hvalue
    exact Outcome.eq_ok_of_toOption hvalue.symm
  · intro h
    rw [h] at hvalue
    exact Outcome.eq_ok_of_toOption hvalue

/-! ## Expressions that are never stuck -/

/-- No part of the expression is stuck. -/
def NeverStuck (c : Context) (P : Platform) (σ : State) (e : Expr) : Prop :=
  ∀ x ∈ e.nodes, x.eval c P σ ≠ .error .stuck

theorem NeverStuck.mono {e x : Expr} (h : e.NeverStuck c P σ) (hx : x.nodes ⊆ e.nodes) :
    x.NeverStuck c P σ := fun y hy => h y (hx hy)

theorem evalIn_ne_stuck {e : Expr} (h : e.NeverStuck c P σ) :
    e.evalIn order c P σ ≠ .error .stuck := by
  fun_induction evalIn order c P σ e with
  | case1 n object name ih =>
    have hself := h _ (mem_nodes (field n object name))
    rw [eval] at hself
    exact Outcome.bind_ne_stuck hself (toOption_evalIn object)
      (ih (h.mono (nodes_subset_field n object name))) fun v hv => hv
  | case2 n array i iha ihi =>
    have hself := h _ (mem_nodes (index n array i))
    rw [eval_index] at hself
    have haddress : (evalIn order c P σ array >>= Value.address) ≠ .error .stuck :=
      Outcome.bind_ne_stuck (Outcome.ne_stuck_of_bind hself) (toOption_evalIn array)
        (iha (h.mono (nodes_subset_index_left n array i))) fun v hv => hv
    refine Outcome.both_ne_stuck hself ?_ (toOption_evalIn i) haddress
      (ihi (h.mono (nodes_subset_index_right n array i))) _
    rw [Outcome.toOption_bind, toOption_evalIn, Outcome.toOption_bind]
  | case3 n array ih =>
    have hself := h _ (mem_nodes (length n array))
    rw [eval] at hself
    exact Outcome.bind_ne_stuck hself (toOption_evalIn array)
      (ih (h.mono (nodes_subset_length n array))) fun v hv => hv
  | case4 n op left right ihl ihr =>
    have hself := h _ (mem_nodes (binary n (.logic op) left right))
    rw [eval] at hself
    exact LogicOp.apply_ne_stuck hself (toOption_evalIn left) (toOption_evalIn right)
      (ihl (h.mono (nodes_subset_binary_left n left right (.logic op))))
      (ihr (h.mono (nodes_subset_binary_right n left right (.logic op))))
  | case5 n op left right ihl ihr =>
    have hself := h _ (mem_nodes (binary n (.compare op) left right))
    rw [eval] at hself
    exact Outcome.both_ne_stuck hself (toOption_evalIn left) (toOption_evalIn right)
      (ihl (h.mono (nodes_subset_binary_left n left right (.compare op))))
      (ihr (h.mono (nodes_subset_binary_right n left right (.compare op)))) _
  | case6 n op left right ihl ihr =>
    have hself := h _ (mem_nodes (binary n (.arith op) left right))
    rw [eval] at hself
    exact Outcome.both_ne_stuck hself (toOption_evalIn left) (toOption_evalIn right)
      (ihl (h.mono (nodes_subset_binary_left n left right (.arith op))))
      (ihr (h.mono (nodes_subset_binary_right n left right (.arith op)))) _
  | case7 n op operand ih =>
    have hself := h _ (mem_nodes (unary n op operand))
    rw [eval] at hself
    exact Outcome.bind_ne_stuck hself (toOption_evalIn operand)
      (ih (h.mono (nodes_subset_unary n operand op))) fun v hv => hv
  | case8 n inner ih => exact ih (h.mono (nodes_subset_paren n inner))
  | _ => exact h _ (mem_nodes _)

/-- Whether a guard fails does not depend on the order either. -/
theorem exists_guard_evalIn_iff {e : Expr} (h : e.NeverStuck c P σ) :
    (∃ g, e.evalIn order c P σ = .error (.guard g)) ↔ ∃ g, e.eval c P σ = .error (.guard g) := by
  rw [Outcome.exists_guard_iff (evalIn_ne_stuck h), Outcome.exists_guard_iff (h e e.mem_nodes),
    toOption_evalIn]

/-! ## Operands that fail apart -/

/-- The right operand is evaluated first, and would fail a guard of another kind than the left
    one. -/
def FailsApart (order : Expr → Expr → Bool) (c : Context) (P : Platform) (σ : State) :
    Expr → Prop
  | .index _ array i =>
    order array i = true ∧ FailApart (array.eval c P σ >>= Value.address) (i.eval c P σ)
  | .binary _ (.compare _) left right | .binary _ (.arith _) left right =>
    order left right = true ∧ FailApart (left.eval c P σ) (right.eval c P σ)
  | _ => False

/-- No part of the expression has its operands fail apart. -/
def NeverApart (order : Expr → Expr → Bool) (c : Context) (P : Platform) (σ : State)
    (e : Expr) : Prop := ∀ x ∈ e.nodes, ¬ x.FailsApart order c P σ

theorem NeverApart.mono {e x : Expr} (h : e.NeverApart order c P σ) (hx : x.nodes ⊆ e.nodes) :
    x.NeverApart order c P σ := fun y hy => h y (hx hy)

theorem evalIn_eq_eval {e : Expr} (h : e.NeverStuck c P σ) (hapart : e.NeverApart order c P σ) :
    e.evalIn order c P σ = e.eval c P σ := by
  fun_induction evalIn order c P σ e with
  | case1 n object name ih =>
    have hsub := nodes_subset_field n object name
    rw [eval, ih (h.mono hsub) (hapart.mono hsub)]
  | case2 n array i iha ihi =>
    have hleft := nodes_subset_index_left n array i
    have hright := nodes_subset_index_right n array i
    have hstuck := h _ (mem_nodes (index n array i))
    rw [eval_index] at hstuck ⊢
    rw [iha (h.mono hleft) (hapart.mono hleft), ihi (h.mono hright) (hapart.mono hright)]
    exact Outcome.both_eq_both_false (Outcome.ne_stuck_of_bind hstuck)
      (h.mono hright i i.mem_nodes) fun horder hfail =>
        hapart _ (mem_nodes (index n array i)) ⟨horder, hfail⟩
  | case3 n array ih =>
    have hsub := nodes_subset_length n array
    rw [eval, ih (h.mono hsub) (hapart.mono hsub)]
  | case4 n op left right ihl ihr =>
    have hleft := nodes_subset_binary_left n left right (.logic op)
    have hright := nodes_subset_binary_right n left right (.logic op)
    rw [eval, ihl (h.mono hleft) (hapart.mono hleft), ihr (h.mono hright) (hapart.mono hright)]
  | case5 n op left right ihl ihr =>
    have hleft := nodes_subset_binary_left n left right (.compare op)
    have hright := nodes_subset_binary_right n left right (.compare op)
    rw [eval, ihl (h.mono hleft) (hapart.mono hleft), ihr (h.mono hright) (hapart.mono hright)]
    exact Outcome.both_eq_both_false (h.mono hleft left left.mem_nodes)
      (h.mono hright right right.mem_nodes) fun horder hfail =>
        hapart _ (mem_nodes (binary n (.compare op) left right)) ⟨horder, hfail⟩
  | case6 n op left right ihl ihr =>
    have hleft := nodes_subset_binary_left n left right (.arith op)
    have hright := nodes_subset_binary_right n left right (.arith op)
    rw [eval, ihl (h.mono hleft) (hapart.mono hleft), ihr (h.mono hright) (hapart.mono hright)]
    exact Outcome.both_eq_both_false (h.mono hleft left left.mem_nodes)
      (h.mono hright right right.mem_nodes) fun horder hfail =>
        hapart _ (mem_nodes (binary n (.arith op) left right)) ⟨horder, hfail⟩
  | case7 n op operand ih =>
    have hsub := nodes_subset_unary n operand op
    rw [eval, ih (h.mono hsub) (hapart.mono hsub)]
  | case8 n inner ih =>
    have hsub := nodes_subset_paren n inner
    rw [eval, ih (h.mono hsub) (hapart.mono hsub)]
  | _ => rfl

end Expr

end IcLir
