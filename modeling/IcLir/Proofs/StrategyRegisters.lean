import IcLir.Proofs.FirstFailure
import IcLir.Proofs.RegisterNeed

/-
  The registers that the two strategies need for one expression. The pressure-aware strategy
  exchanges operands by their weights, and a weight is only an estimate: the operands of a logical
  operation share a register, but weigh as much as if they did not. So a right operand may go
  first that needs fewer registers than the left one (`Overtaken`). Where no operand does, the
  pressure-aware code needs no more registers than the baseline code (`Lowered.reach_le`): calls
  are the same in both, and an operand with a call in it is never moved.
-/

namespace IcLir

open Lowering

/-! ## Counting -/

theorem Strategy.rightFirst_baseline (left right : Expr) :
    Strategy.rightFirst .baseline left right = false := rfl

namespace Context

variable {c : Context} {e left right : Expr}

/-- The left operand of an operation goes second, though its code needs more registers than the
    baseline code of the right operand, and no fewer than its own baseline code. -/
def Overtaken (c : Context) (e : Expr) : Prop :=
  e.isLogic = false ∧ ∃ left right, e.operands? = some (left, right) ∧
    Strategy.rightFirst .pressureAware left right = true ∧
    c.need .baseline left ≤ c.need .pressureAware left ∧
    c.need .baseline right < c.need .pressureAware left

instance (c : Context) (e : Expr) : Decidable (c.Overtaken e) :=
  decidable_of_iff (e.isLogic = false ∧ ∃ pair ∈ e.operands?,
    Strategy.rightFirst .pressureAware pair.1 pair.2 = true ∧
    c.need .baseline pair.1 ≤ c.need .pressureAware pair.1 ∧
    c.need .baseline pair.2 < c.need .pressureAware pair.1) (by simp [Overtaken])

theorem need_le_baseline (hw : e.weight ≠ .unbounded) (hnot : ∀ x ∈ e.nodes, ¬ c.Overtaken x) :
    c.need .pressureAware e ≤ c.need .baseline e := by
  refine Expr.bounded_induction (motive := fun e => (∀ x ∈ e.nodes, ¬ c.Overtaken x) →
    c.need .pressureAware e ≤ c.need .baseline e) ?leaf ?one ?two e hw hnot
  case leaf =>
    intro e hleaf _
    rw [need_leaf hleaf]
    exact Nat.zero_le _
  case one =>
    intro e operand he ih hnot
    rw [need_of_operand? he, need_of_operand? he]
    exact ih fun x hx => hnot x (Expr.nodes_operand?_subset he hx)
  case two =>
    intro e left right he ihl ihr hnot
    obtain ⟨hleft, hright⟩ := Expr.nodes_operands?_subset he
    have hl := ihl fun x hx => hnot x (hleft hx)
    have hr := ihr fun x hx => hnot x (hright hx)
    rcases need_of_operands? he with ⟨_, hneed⟩ | ⟨hlogic, hneed⟩
    · rw [hneed, hneed]
      omega
    · obtain ⟨kept, _, hp⟩ := hneed .pressureAware
      obtain ⟨_, hkept, hb⟩ := hneed .baseline
      rw [hp, hb, hkept rfl, Strategy.rightFirst_baseline, pairNeed, pairNeed,
        if_neg Bool.false_ne_true, if_neg Bool.false_ne_true]
      split
      · next hfirst =>
        -- otherwise the node itself would be overtaken
        have hself := hnot e e.mem_nodes
        have hcase : ¬ (c.need .baseline left ≤ c.need .pressureAware left ∧
            c.need .baseline right < c.need .pressureAware left) := fun h =>
          hself ⟨hlogic, left, right, he, hfirst, h⟩
        omega
      · split <;> omega

theorem combine_ne_of_rightFirst {s : Strategy} (h : s.rightFirst left right = true) :
    left.weight.combine right.weight ≠ .unbounded := by
  obtain ⟨x, y, hl, hr, _⟩ := Expr.bounded_of_rightFirst h
  rw [hl, hr, RegisterWeight.combine]
  split <;> simp

theorem Overtaken.exists_operands (h : c.Overtaken e) :
    ∃ left right, e.operands? = some (left, right) := by
  obtain ⟨_, left, right, he, _⟩ := h
  exact ⟨left, right, he⟩

theorem Overtaken.weight_ne (h : c.Overtaken e) : e.weight ≠ .unbounded := by
  obtain ⟨_, left, right, he, hfirst, _⟩ := h
  rw [Expr.weight_of_operands? he]
  exact combine_ne_of_rightFirst hfirst

/-- An overtaken operand does cost a register. -/
theorem Overtaken.need_lt (h : c.Overtaken e) :
    c.need .baseline e < c.need .pressureAware e := by
  obtain ⟨hlogic, left, right, he, hfirst, hleft, hright⟩ := h
  rcases need_of_operands? (c := c) he with ⟨hlogic', _⟩ | ⟨_, hneed⟩
  · rw [hlogic] at hlogic'
    cases hlogic'
  · obtain ⟨kept, _, hp⟩ := hneed .pressureAware
    obtain ⟨_, hkept, hb⟩ := hneed .baseline
    rw [hp, hb, hkept rfl, hfirst, Strategy.rightFirst_baseline, pairNeed, pairNeed, if_pos rfl,
      if_neg Bool.false_ne_true, if_neg Bool.false_ne_true]
    omega

/-- Without logical operations the weight is no more than what is needed from left to right. -/
theorem weight_le_need {w : UInt32} (hw : e.weight = .bounded w)
    (hsize : e.nodes.length.log2 < UInt32.size) (hlogic : ∀ x ∈ e.nodes, x.isLogic = false) :
    w.toNat ≤ c.need .baseline e := by
  refine Expr.weight_induction (motive := fun e n => (∀ x ∈ e.nodes, x.isLogic = false) →
    n ≤ c.need .baseline e) ?leaf ?one ?two hw hsize hlogic
  case leaf =>
    intro e _ _
    exact Nat.zero_le _
  case one =>
    intro e operand n he ih hlogic
    rw [need_of_operand? he]
    exact ih fun x hx => hlogic x (Expr.nodes_operand?_subset he hx)
  case two =>
    intro e left right m n he _ ihl ihr hlogic
    obtain ⟨hleft, hright⟩ := Expr.nodes_operands?_subset he
    have hl := ihl fun x hx => hlogic x (hleft hx)
    have hr := ihr fun x hx => hlogic x (hright hx)
    rcases need_of_operands? (c := c) he with ⟨hself, _⟩ | ⟨_, hneed⟩
    · rw [hlogic e e.mem_nodes] at hself
      cases hself
    · obtain ⟨_, hkept, hb⟩ := hneed .baseline
      rw [hb, hkept rfl, Strategy.rightFirst_baseline, pairNeed, if_neg Bool.false_ne_true,
        if_neg Bool.false_ne_true]
      split <;> omega

/-- It takes a logical operation on the right to overtake. -/
theorem Overtaken.exists_isLogic (h : c.Overtaken e) (he : e.operands? = some (left, right))
    (hsize : e.nodes.length.log2 < UInt32.size) : ∃ x ∈ right.nodes, x.isLogic = true := by
  obtain ⟨_, left', right', he', hfirst, _, hright⟩ := h
  obtain ⟨rfl, rfl⟩ := Prod.mk.inj (Option.some.inj (he'.symm.trans he))
  obtain ⟨x, y, hx, hy, hlt⟩ := Expr.bounded_of_rightFirst hfirst
  have hlength := Expr.length_operands?_le he
  have hlsize := Expr.log2_le_log2 (x := left') (e := e) (by omega)
  have hrsize := Expr.log2_le_log2 (x := right') (e := e) (by omega)
  have hneed : c.need .pressureAware left' ≤ x.toNat :=
    need_le_weight hx (Nat.lt_of_le_of_lt hlsize hsize)
  refine Classical.byContradiction fun hnone => ?_
  have hweight : y.toNat ≤ c.need .baseline right' := by
    refine weight_le_need hy (Nat.lt_of_le_of_lt hrsize hsize) fun z hz => ?_
    exact Bool.eq_false_iff.mpr fun hz' => hnone ⟨z, hz, hz'⟩
  have hlt' := UInt32.lt_iff_toNat_lt.mp hlt
  omega

end Context

/-! ## Code -/

namespace Lowering

open Code Pass

section

variable {env : LowerEnv}

theorem fixed_bindings (m : MethodDecl) (base : Nat) : Fixed (env.bindings m base) :=
  .bind (fixed_promised _ _) fun _ => fixed_pure _

theorem fixed_staticCallLine (callee : Callee) (name : String) (d : Nat) :
    Fixed (env.staticCallLine callee name d) := by
  unfold LowerEnv.staticCallLine
  dsimp only
  split
  · exact fixed_pure _
  all_goals exact .bind (fixed_bindings _ _) fun _ => fixed_pure _

theorem fixed_virtualCallLine (callee : Callee) (d : Nat) :
    Fixed (env.virtualCallLine callee d) :=
  .bind (fixed_promised _ _) fun _ => .bind (fixed_bindings _ _) fun _ => fixed_pure _

end

section

variable {l r l' r' : Code × Operand} {d : Nat}

theorem top_le_top (h : reach d r' ≤ reach d r) : top d r' ≤ top d r := by
  simp only [top]
  omega

theorem reach_operation_le {lines : Code} {o o' : Operand} (h : reach d r' ≤ reach d r)
    (hlines : lines.highest = d) (ho : o.highest ≤ d) (ho' : o'.highest ≤ d) :
    reach d (r'.1 ++ load r'.2 d ++ lines, o') ≤ reach d (r.1 ++ load r.2 d ++ lines, o) := by
  rw [reach_operation hlines ho, reach_operation hlines ho']
  exact top_le_top h

theorem reach_logic_le (hl : reach d l' ≤ reach d l) (hr : reach d r' ≤ reach d r) (op : LogicOp)
    (labels labels' : LabelSet) :
    reach d (logicCode op labels' l' r' d, .r d) ≤ reach d (logicCode op labels l r d, .r d) := by
  have htop := top_le_top hl
  have htop' := top_le_top hr
  rw [reach_logicCode, reach_logicCode]
  omega

theorem highest_le_reach (r : Code × Operand) (d : Nat) : r.1.highest ≤ reach d r := by
  rw [reach, highest_append]
  exact Nat.le_max_left ..

/-- A right operand that is kept where it is takes no register. -/
theorem pairTop_le_of_operands (hl : reach d l' ≤ reach d l)
    (hr : reach (d + 1) r' ≤ reach (d + 1) r) (kept : Bool) :
    pairTop false kept d l' r' ≤ pairTop false false d l r := by
  have htop := top_le_top hl
  have htop' := top_le_top hr
  have hcode := highest_le_reach r' (d + 1)
  have hreach : reach (d + 1) r' ≤ top (d + 1) r' := reach_le_top
  simp only [pairTop, rightTop, Bool.false_eq_true, if_false]
  split <;> omega

section

variable {rightFirst rightFirst' : Bool}
  (h : ∀ kept, pairTop rightFirst' kept d l' r' ≤ pairTop rightFirst false d l r)

include h

theorem reach_index_le :
    reach d (indexCode rightFirst' l' r' d) ≤ reach d (indexCode rightFirst l r d) := by
  rw [reach_indexCode, reach_indexCode]
  exact h false

theorem reach_compare_le (op : CompareOp) (labels labels' : LabelSet) :
    reach d (compareCode op labels' (operands .pressureAware rightFirst' true d l' r') d, .r d) ≤
      reach d (compareCode op labels (operands .baseline rightFirst true d l r) d, .r d) := by
  rw [reach_compareCode, reach_compareCode]
  exact h _

theorem reach_arith_le {isConcat isConcat' : Bool} (op : ArithOp) (hconcat : isConcat' = isConcat) :
    reach d (operationCode isConcat' op
        (operands .pressureAware rightFirst' (keepsRight isConcat' op.divides) d l' r') d, .r d) ≤
      reach d (operationCode isConcat op
        (operands .baseline rightFirst (keepsRight isConcat op.divides) d l r) d, .r d) := by
  have hkept : (keepsRight isConcat op.divides && Strategy.baseline = .pressureAware &&
      r.2.isHeld) = false := by
    simp
  rw [hconcat, reach_operationCode, reach_operationCode, hkept]
  exact h _

end

theorem highest_append_le {code code' : Code} (h : reach d r' ≤ reach d r)
    (hcode : code'.highest ≤ code.highest) :
    (r'.1 ++ load r'.2 d ++ code').highest ≤ (r.1 ++ load r.2 d ++ code).highest := by
  rw [highest_append _ code', highest_append _ code]
  simp only [reach] at h
  omega

theorem reach_call_le {pre pre' args args' : Code} {line line' : Line}
    (hpre : pre'.highest ≤ pre.highest) (hargs : args'.highest ≤ args.highest)
    (hline : line' = line) :
    reach d (pre' ++ args' ++ [line'], .r d) ≤ reach d (pre ++ args ++ [line], .r d) := by
  rw [reach_r, reach_r, hline]
  simp only [highest_append]
  omega

end

variable {c : Context} {owner : TypeId}

section

variable {callee callee' : Callee} {type : TypeId} {name : String} {d : Nat}
  {s s' u u' : Supply} {line line' : Line}

/-- The strategies agree on who is called. -/
theorem callee_eq (h : LowerEnv.callee ⟨c, .baseline, owner⟩ type name s = .ok callee s)
    (h' : LowerEnv.callee ⟨c, .pressureAware, owner⟩ type name u = .ok callee' u) :
    callee' = callee :=
  fixed_callee type name _ _ _ _ _ _ h' h

theorem staticCallLine_eq (hcallee : callee' = callee)
    (h : LowerEnv.staticCallLine ⟨c, .baseline, owner⟩ callee name d s = .ok line s')
    (h' : LowerEnv.staticCallLine ⟨c, .pressureAware, owner⟩ callee' name d u = .ok line' u') :
    line' = line := by
  rw [hcallee] at h'
  exact fixed_staticCallLine callee name d _ _ _ _ _ _ h' h

theorem virtualCallLine_eq (hcallee : callee' = callee)
    (h : LowerEnv.virtualCallLine ⟨c, .baseline, owner⟩ callee d s = .ok line s')
    (h' : LowerEnv.virtualCallLine ⟨c, .pressureAware, owner⟩ callee' d u = .ok line' u') :
    line' = line := by
  rw [hcallee] at h'
  exact fixed_virtualCallLine callee d _ _ _ _ _ _ h' h

end

mutual

/-- Where no operand is overtaken, the pressure-aware code goes no further. -/
theorem Lowered.reach_le (h : Lowered ⟨c, .baseline, owner⟩ e d s r s')
    (h' : Lowered ⟨c, .pressureAware, owner⟩ e d u r' u') (hnot : ∀ x ∈ e.nodes, ¬ c.Overtaken x) :
    reach d r' ≤ reach d r := by
  by_cases hw : e.weight = .unbounded
  case neg =>
    rw [h.reach_eq hw, h'.reach_eq hw]
    exact Nat.add_le_add_left (Context.need_le_baseline hw hnot) d
  -- from here on there is a call somewhere, and the operands on the way to it stay in their order
  match h with
  | .literal _ | .var _ | .ownField _ _ | .this | .newObject _ _ => cases hw
  | .field hobject _ _ =>
    cases h' with
    | field hobject' _ _ =>
      exact reach_operation_le (hobject.reach_le hobject' fun x hx => hnot x (.tail _ hx))
        (highest_guardLine d) (Nat.le_of_eq (Nat.max_zero d)) (Nat.le_of_eq (Nat.max_zero d))
  | .length harray =>
    cases h' with
    | length harray' =>
      exact reach_operation_le (harray.reach_le harray' fun x hx => hnot x (.tail _ hx))
        (highest_lengthLines d) (Nat.le_of_eq (Nat.max_zero d)) (Nat.le_of_eq (Nat.max_zero d))
  | .newArray hsize =>
    cases h' with
    | newArray hsize' =>
      exact reach_operation_le (hsize.reach_le hsize' fun x hx => hnot x (.tail _ hx))
        (highest_allocationLines d) (Nat.le_of_eq (Nat.max_zero d))
        (Nat.le_of_eq (Nat.max_zero d))
  | .unary hoperand =>
    cases h' with
    | unary hoperand' =>
      exact reach_operation_le (hoperand.reach_le hoperand' fun x hx => hnot x (.tail _ hx))
        (highest_unaryLine _ d) (Nat.le_of_eq (Nat.max_zero d)) (Nat.le_of_eq (Nat.max_zero d))
  | .paren hinner =>
    cases h' with
    | paren hinner' => exact hinner.reach_le hinner' fun x hx => hnot x (.tail _ hx)
  | .logic hl hr =>
    cases h' with
    | logic hl' hr' =>
      exact reach_logic_le
        (hl.reach_le hl' fun x hx => hnot x (.tail _ (List.mem_append_left _ hx)))
        (hr.reach_le hr' fun x hx => hnot x (.tail _ (List.mem_append_right _ hx))) _ _ _
  | .index hpair =>
    cases h' with
    | index hpair' =>
      exact reach_index_le (hpair.pairTop_le hpair' hw fun x hx => hnot x (.tail _ hx))
  | .compare hpair =>
    cases h' with
    | compare hpair' =>
      exact reach_compare_le (hpair.pairTop_le hpair' hw fun x hx => hnot x (.tail _ hx)) _ _ _
  | .arith hconcat hpair =>
    cases h' with
    | arith hconcat' hpair' =>
      exact reach_arith_le (hpair.pairTop_le hpair' hw fun x hx => hnot x (.tail _ hx)) _
        ((eq_joins_of_isConcat hconcat').trans (eq_joins_of_isConcat hconcat).symm)
  | .staticCall hclass hcallee hargs hline =>
    cases h' with
    | staticCall hclass' hcallee' hargs' hline' =>
      obtain rfl := Option.some.inj (hclass.symm.trans hclass')
      exact reach_call_le (Nat.le_refl (Code.highest []))
        (hargs.highest_le hargs' fun x hx => hnot x (.tail _ hx))
        (staticCallLine_eq (callee_eq hcallee hcallee') hline hline')
  | .ownStatic hcallee hkind hargs hline =>
    cases h' with
    | ownStatic hcallee' _ hargs' hline' =>
      exact reach_call_le (Nat.le_refl (Code.highest []))
        (hargs.highest_le hargs' fun x hx => hnot x (.tail _ hx))
        (staticCallLine_eq (callee_eq hcallee hcallee') hline hline')
    | ownVirtual hcallee' hkind' _ _ =>
      rw [callee_eq hcallee hcallee', hkind] at hkind'
      cases hkind'
  | .ownVirtual hcallee hkind hargs hline =>
    cases h' with
    | ownStatic hcallee' hkind' _ _ =>
      rw [callee_eq hcallee hcallee', hkind] at hkind'
      cases hkind'
    | ownVirtual hcallee' _ hargs' hline' =>
      exact reach_call_le (Nat.le_refl (Code.highest [.instr (.move .receiver (.r d))]))
        (hargs.highest_le hargs' fun x hx => hnot x (.tail _ hx))
        (virtualCallLine_eq (callee_eq hcallee hcallee') hline hline')
  | .methodCall htype hcallee hobject hargs hline =>
    cases h' with
    | methodCall htype' hcallee' hobject' hargs' hline' =>
      obtain rfl := Option.some.inj (htype.symm.trans htype')
      exact reach_call_le
        (highest_append_le (hobject.reach_le hobject' fun x hx =>
          hnot x (.tail _ (List.mem_append_left _ hx))) (Nat.le_refl _))
        (hargs.highest_le hargs' fun x hx => hnot x (.tail _ (List.mem_append_right _ hx)))
        (virtualCallLine_eq (callee_eq hcallee hcallee') hline hline')

theorem LoweredPair.pairTop_le
    (h : LoweredPair ⟨c, .baseline, owner⟩ left right d s rightFirst l r s')
    (h' : LoweredPair ⟨c, .pressureAware, owner⟩ left right d u rightFirst' l' r' u')
    (hw : left.weight.combine right.weight = .unbounded)
    (hnot : ∀ x ∈ left.nodes ++ right.nodes, ¬ c.Overtaken x) (kept : Bool) :
    pairTop rightFirst' kept d l' r' ≤ pairTop rightFirst false d l r := by
  match h with
  | .rightFirst hfirst _ _ => cases hfirst
  | .leftFirst _ hl hr =>
    cases h' with
    | leftFirst _ hl' hr' =>
      exact pairTop_le_of_operands
        (hl.reach_le hl' fun x hx => hnot x (List.mem_append_left _ hx))
        (hr.reach_le hr' fun x hx => hnot x (List.mem_append_right _ hx)) kept
    | rightFirst hfirst _ _ => exact absurd hw (Context.combine_ne_of_rightFirst hfirst)

theorem LoweredArgs.highest_le (h : LoweredArgs ⟨c, .baseline, owner⟩ es d s code s')
    (h' : LoweredArgs ⟨c, .pressureAware, owner⟩ es d u code' u')
    (hnot : ∀ x ∈ Expr.nodesOfList es, ¬ c.Overtaken x) : code'.highest ≤ code.highest := by
  match h with
  | .nil =>
    cases h' with
    | nil => exact Nat.le_refl _
  | .cons he hes =>
    cases h' with
    | cons he' hes' =>
      exact highest_append_le (he.reach_le he' fun x hx => hnot x (List.mem_append_left _ hx))
        (hes.highest_le hes' fun x hx => hnot x (List.mem_append_right _ hx))

end

end Lowering

/-! ## Expressions of accepted programs -/

section

open Code TypeTable

variable {options : Options} {p : Program} {c : Context} {i : Nat} {k : ClassDecl}
  {method : MethodDecl} {e : Expr}

/-- An expression of a method body, under both strategies, at the same base register. The
    pressure-aware code goes no further than the baseline code, unless some operand in the
    expression is overtaken. An operation whose left operand is overtaken goes further indeed, and
    has a logical operation in its right operand. -/
theorem pressure_aware_needs_no_more_unless_overtaken (hp : p.DistinctNodes)
    (hc : analyzed options p = .ok c) (hi : p.classes[i]? = some k) (hm : method ∈ k.methods)
    (hkind : method.kind ≠ .library) (he : e ∈ Stmt.exprsOfList method.body) (d : Nat)
    (s s' : Supply) :
    ∃ code o t code' o' t',
      lowerExpr ⟨c, .baseline, classId i⟩ e d s = .ok (code, o) t ∧
      lowerExpr ⟨c, .pressureAware, classId i⟩ e d s' = .ok (code', o') t' ∧
      ((∀ x ∈ e.nodes, ¬ c.Overtaken x) →
        (code' ++ load o' d).highest ≤ (code ++ load o d).highest) ∧
      (c.Overtaken e → (code ++ load o d).highest < (code' ++ load o' d).highest) ∧
      (c.Overtaken e → e.nodes.length.log2 < UInt32.size →
        ∃ left right, e.operands? = some (left, right) ∧ ∃ x ∈ right.nodes, x.isLogic = true) := by
  obtain ⟨code, o, t, hlower⟩ := exists_lowerExpr hp hc hi hm hkind he .baseline d s
  obtain ⟨code', o', t', hlower'⟩ := exists_lowerExpr hp hc hi hm hkind he .pressureAware d s'
  have hlowered := lowered_of_ok hlower
  have hlowered' := lowered_of_ok hlower'
  refine ⟨code, o, t, code', o', t', hlower, hlower', hlowered.reach_le hlowered', ?_, ?_⟩
  · intro hover
    have hreach : (code ++ load o d).highest = d + c.need .baseline e :=
      hlowered.reach_eq hover.weight_ne
    have hreach' : (code' ++ load o' d).highest = d + c.need .pressureAware e :=
      hlowered'.reach_eq hover.weight_ne
    rw [hreach, hreach']
    exact Nat.add_lt_add_left hover.need_lt d
  · intro hover hsize
    obtain ⟨left, right, hoperands⟩ := hover.exists_operands
    exact ⟨left, right, hoperands, hover.exists_isLogic hoperands hsize⟩

end

/-- The quotient waits for a conjunction that needs no register beyond its base. -/
theorem Verdict.overtaken_verdict :
    context.need .baseline verdict = 1 ∧ context.need .pressureAware verdict = 2 ∧
      context.Overtaken verdict := by
  decide +kernel

/-- The operands of `1 % (2 / 0)` are exchanged, and neither is overtaken; in
    `(x / y == 2) == ((a && a) && (a && a))` the quotient is. -/
theorem pressure_aware_needs_no_more_unless_overtaken_verdict :
    (∃ code o t code' o' t',
      lowerExpr ⟨Failing.context, .baseline, TypeTable.classId 0⟩ Failing.remainder 2 .initial =
        .ok (code, o) t ∧
      lowerExpr ⟨Failing.context, .pressureAware, TypeTable.classId 0⟩ Failing.remainder 2
        .initial = .ok (code', o') t' ∧
      (code' ++ Code.load o' 2).highest ≤ (code ++ Code.load o 2).highest) ∧
    Verdict.context.Overtaken Verdict.verdict ∧
    ∃ code o t code' o' t',
      lowerExpr ⟨Verdict.context, .baseline, TypeTable.classId 0⟩ Verdict.verdict 2 .initial =
        .ok (code, o) t ∧
      lowerExpr ⟨Verdict.context, .pressureAware, TypeTable.classId 0⟩ Verdict.verdict 2 .initial =
        .ok (code', o') t' ∧
      (code ++ Code.load o 2).highest < (code' ++ Code.load o' 2).highest := by
  have hnot : ∀ x ∈ Failing.remainder.nodes, ¬ Failing.context.Overtaken x := by decide +kernel
  have hover := Verdict.overtaken_verdict.2.2
  obtain ⟨code, o, t, code', o', t', hlower, hlower', hle, _⟩ :=
    pressure_aware_needs_no_more_unless_overtaken Failing.distinctNodes Failing.analyzed_program
      (i := 0) rfl (List.mem_singleton_self Failing.main) (by decide)
      (e := Failing.remainder) (List.mem_of_getElem? (i := 6) rfl) 2 .initial .initial
  obtain ⟨code₁, o₁, t₁, code₂, o₂, t₂, hlower₁, hlower₂, _, hlt, _⟩ :=
    pressure_aware_needs_no_more_unless_overtaken Verdict.distinctNodes Verdict.analyzed_program
      (i := 0) rfl (List.mem_singleton_self Verdict.main) (by decide) Verdict.verdict_mem 2
      .initial .initial
  exact ⟨⟨code, o, t, code', o', t', hlower, hlower', hle hnot⟩, hover,
    code₁, o₁, t₁, code₂, o₂, t₂, hlower₁, hlower₂, hlt hover⟩

/-- `(x / y == 2) == ((a && a) && (a && a))` takes registers 0 and 1 from left to right, and
    register 2 as well if the heavier operand goes first. -/
theorem exchange_takes_another_register :
    analyzed {} Verdict.program = .ok Verdict.context ∧
    Verdict.verdict ∈ Stmt.exprsOfList Verdict.main.body ∧
    ∃ code o t code' o' t',
      lowerExpr ⟨Verdict.context, .baseline, TypeTable.classId 0⟩ Verdict.verdict 0 .initial =
        .ok (code, o) t ∧
      lowerExpr ⟨Verdict.context, .pressureAware, TypeTable.classId 0⟩ Verdict.verdict 0 .initial =
        .ok (code', o') t' ∧
      (code ++ Code.load o 0).highest = 1 ∧ (code' ++ Code.load o' 0).highest = 2 := by
  have hlowers := exists_lowerExpr Verdict.distinctNodes Verdict.analyzed_program (i := 0) rfl
    (List.mem_singleton_self Verdict.main) (by decide) Verdict.verdict_mem
  obtain ⟨code, o, t, hlower⟩ := hlowers .baseline 0 .initial
  obtain ⟨code', o', t', hlower'⟩ := hlowers .pressureAware 0 .initial
  obtain ⟨hneed, hneed', _⟩ := Verdict.overtaken_verdict
  have hreach : (code ++ Code.load o 0).highest = 0 + 1 :=
    ((lowered_of_ok hlower).reach_eq (by decide)).trans (congrArg (0 + ·) hneed)
  have hreach' : (code' ++ Code.load o' 0).highest = 0 + 2 :=
    ((lowered_of_ok hlower').reach_eq (by decide)).trans (congrArg (0 + ·) hneed')
  exact ⟨Verdict.analyzed_program, Verdict.verdict_mem, code, o, t, code', o', t', hlower, hlower',
    hreach, hreach'⟩

end IcLir
