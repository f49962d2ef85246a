import IcLir.Proofs.FreshLabels
import IcLir.Proofs.ProgramCode

/-
  The calls of the source and the lines that they come to. The calls of an expression are made in
  the order of `Expr.calls`, under either strategy: an operand with a call in it has no bounded
  weight and is never moved. A call comes to one line, the numbers of its registers apart
  (`LowerEnv.Makes`). All other calls in the code are added for guards, allocations and the
  joining of strings (`Line.Added`, `Code.UserCalls`).
-/

namespace IcLir

/-! ## Calls in code -/

namespace Line

def isCall : Line → Bool
  | .instr (.library ..) | .instr (.staticCall ..) | .instr (.virtualCall ..) => true
  | _ => false

/-- A call that stands for no call of the source. -/
inductive Added : Line → Prop where
  | guard (g : Guard) (registers : List Nat) : Added (g.call registers)
  | allocateObject (size : Int) (d : Nat) :
    Added (Lowering.libraryCall "__allocateObject" [.int size] d)
  | allocateArray (d : Nat) : Added (Lowering.libraryCall "__allocateArray" [.r d] d)
  | stringCat (left : Nat) (right : Operand) (d : Nat) :
    Added (Lowering.libraryCall "__stringCat" [.r left, right] d)

theorem added_of_not_isCall {line : Line} (h : line.isCall = false) :
    line.isCall = true → line.Added := by
  intro hcall
  rw [h] at hcall
  cases hcall

end Line

/-- The register without its number. -/
def Register.blank : Register → Register
  | .general _ => .general 0
  | .scratch _ => .scratch 0
  | .discard => .discard

@[simp] theorem Register.blank_general (n : Nat) : (general n).blank = general 0 := rfl

def Operand.blank : Operand → Operand
  | .reg r => .reg r.blank
  | o => o

/-- A call without the numbers of its registers. -/
def Line.blank : Line → Line
  | .instr (.library routine args result) =>
    .instr (.library routine (args.map Operand.blank) result.blank)
  | .instr (.staticCall target bindings result) =>
    .instr (.staticCall target (bindings.map fun b => (b.1, b.2.blank)) result.blank)
  | .instr (.virtualCall object slot bindings result) =>
    .instr (.virtualCall object.blank slot (bindings.map fun b => (b.1, b.2.blank)) result.blank)
  | line => line

namespace Code

/-- The calls in the code that are not added are the given ones, in this order. -/
inductive UserCalls : Code → List Line → Prop where
  | nil : UserCalls [] []
  | call {line : Line} {code : Code} {calls : List Line} :
    line.isCall = true → UserCalls code calls → UserCalls (line :: code) (line :: calls)
  | other {line : Line} {code : Code} {calls : List Line} :
    (line.isCall = true → line.Added) → UserCalls code calls → UserCalls (line :: code) calls

end Code

/-! ## Calls of the source -/

namespace RegisterWeight

theorem combine_eq_unbounded_iff {a b : RegisterWeight} :
    a.combine b = .unbounded ↔ a = .unbounded ∨ b = .unbounded := by
  cases a with
  | unbounded => simp [combine]
  | bounded x =>
    cases b with
    | unbounded => simp [combine]
    | bounded y =>
      rw [combine]
      split <;> simp

theorem combine_ne_unbounded {a b : RegisterWeight} (h : a.combine b ≠ .unbounded) :
    a ≠ .unbounded ∧ b ≠ .unbounded :=
  not_or.mp fun hsides => h (combine_eq_unbounded_iff.mpr hsides)

end RegisterWeight

namespace Expr

mutual

/-- The calls in an expression, in the order in which they are made: its operands from left to
    right and the call itself after its arguments. -/
def calls : Expr → List Expr
  | .literal .. | .var .. | .this _ | .newObject .. => []
  | .field _ object _ => object.calls
  | .index _ array i => array.calls ++ i.calls
  | e@(.staticCall _ _ _ args) => callsOfList args ++ [e]
  | e@(.ownCall _ _ args) => callsOfList args ++ [e]
  | e@(.methodCall _ receiver _ args) => receiver.calls ++ callsOfList args ++ [e]
  | .newArray _ _ size => size.calls
  | .length _ array => array.calls
  | .binary _ _ left right => left.calls ++ right.calls
  | .unary _ _ operand => operand.calls
  | .paren _ inner => inner.calls

def callsOfList : List Expr → List Expr
  | [] => []
  | e :: es => e.calls ++ callsOfList es

end

/-- An expression of bounded weight has no calls. -/
theorem calls_eq_nil {e : Expr} (h : e.weight ≠ .unbounded) : e.calls = [] := by
  match e with
  | .literal .. | .var .. | .this _ | .newObject .. => rfl
  | .staticCall .. | .ownCall .. | .methodCall .. => exact absurd rfl h
  | .field _ object _ => exact calls_eq_nil (e := object) h
  | .newArray _ _ size => exact calls_eq_nil (e := size) h
  | .length _ array => exact calls_eq_nil (e := array) h
  | .unary _ _ operand => exact calls_eq_nil (e := operand) h
  | .paren _ inner => exact calls_eq_nil (e := inner) h
  | .index _ array i =>
    obtain ⟨ha, hi⟩ := RegisterWeight.combine_ne_unbounded h
    rw [calls, calls_eq_nil ha, calls_eq_nil hi, List.append_nil]
  | .binary _ _ left right =>
    obtain ⟨hl, hr⟩ := RegisterWeight.combine_ne_unbounded h
    rw [calls, calls_eq_nil hl, calls_eq_nil hr, List.append_nil]

/-- A right operand goes first if it is the heavier of two with bounded weights. -/
theorem bounded_of_rightFirst {strategy : Strategy} {left right : Expr}
    (h : strategy.rightFirst left right = true) :
    ∃ x y, left.weight = .bounded x ∧ right.weight = .bounded y ∧ x < y := by
  obtain ⟨_, hprefers⟩ := Bool.and_eq_true_iff.mp h
  cases hl : left.weight with
  | unbounded =>
    rw [hl] at hprefers
    cases hprefers
  | bounded x =>
    cases hr : right.weight with
    | unbounded =>
      rw [hl, hr] at hprefers
      cases hprefers
    | bounded y =>
      rw [hl, hr] at hprefers
      exact ⟨x, y, rfl, rfl, of_decide_eq_true hprefers⟩

/-- Operands are only exchanged if neither has a call in it. -/
theorem calls_eq_nil_of_rightFirst {strategy : Strategy} {left right : Expr}
    (h : strategy.rightFirst left right = true) : left.calls = [] ∧ right.calls = [] := by
  obtain ⟨x, y, hl, hr, _⟩ := bounded_of_rightFirst h
  exact ⟨calls_eq_nil (by simp [hl]), calls_eq_nil (by simp [hr])⟩

end Expr

namespace Stmt

mutual

/-- The calls in a statement, in the order of the code: an assigned value comes before the place
    that it is assigned to. -/
def calls : Stmt → List Expr
  | .assign _ target value => value.calls ++ target.calls
  | .call _ e => e.calls
  | .ret _ none => []
  | .ret _ (some value) => value.calls
  | .ifThen _ condition body => condition.calls ++ body.calls
  | .ifElse _ condition thenBranch elseBranch =>
    condition.calls ++ thenBranch.calls ++ elseBranch.calls
  | .loop _ condition body => condition.calls ++ body.calls
  | .breakLoop _ | .continueLoop _ => []
  | .block _ stmts => callsOfList stmts
  | .declare _ _ _ none => []
  | .declare _ _ _ (some value) => value.calls

def callsOfList : List Stmt → List Expr
  | [] => []
  | stmt :: stmts => stmt.calls ++ callsOfList stmts

end

end Stmt

/-- The line that a call of the source comes to, with its arguments in some registers. -/
inductive LowerEnv.Makes (env : LowerEnv) : Expr → Line → Prop where
  | staticCall {node : Node} {className method : Ident} {args : List Expr} {type : TypeId}
      {callee : Callee} {line : Line} {d : Nat} {s s' : Supply} :
    env.context.types.class? className.name = some type →
    env.callee type method.name s = .ok callee s →
    env.staticCallLine callee method.name d s' = .ok line s' →
    Makes env (.staticCall node className method args) line
  | ownStatic {node : Node} {method : Ident} {args : List Expr} {callee : Callee} {line : Line}
      {d : Nat} {s s' : Supply} :
    env.callee env.type method.name s = .ok callee s → callee.kind.isStatic = true →
    env.staticCallLine callee method.name d s' = .ok line s' →
    Makes env (.ownCall node method args) line
  | ownVirtual {node : Node} {method : Ident} {args : List Expr} {callee : Callee} {line : Line}
      {d : Nat} {s s' : Supply} :
    env.callee env.type method.name s = .ok callee s → callee.kind.isStatic = false →
    env.virtualCallLine callee d s' = .ok line s' → Makes env (.ownCall node method args) line
  | methodCall {node : Node} {receiver : Expr} {method : Ident} {args : List Expr}
      {type : TypeId} {callee : Callee} {line : Line} {d : Nat} {s s' : Supply} :
    env.context.exprTypes.get? receiver.id = some type →
    env.callee type method.name s = .ok callee s →
    env.virtualCallLine callee d s' = .ok line s' →
    Makes env (.methodCall node receiver method args) line

/-! ## Calls without their registers -/

namespace Pass

variable {σ α β : Type}

/-- A computation whose value does not depend on the state. -/
def Fixed (x : Pass σ α) : Prop :=
  ∀ s t a b s' t', x s = .ok a s' → x t = .ok b t' → a = b

theorem fixed_pure (a : α) : Fixed (pure a : Pass σ α) := by
  intro s t b b' s' t' h h'
  exact (EStateM.Result.ok.inj h).1.symm.trans (EStateM.Result.ok.inj h').1

theorem fixed_promised (value : Option α) (defect : Defect) :
    Fixed (promised value defect : Pass σ α) := by
  intro s t a b s' t' h h'
  exact Option.some.inj ((promised_eq_ok.mp h).1.symm.trans (promised_eq_ok.mp h').1)

theorem Fixed.bind {x : Pass σ α} {f : α → Pass σ β} (hx : Fixed x) (hf : ∀ a, Fixed (f a)) :
    Fixed (x >>= f) := by
  intro s t b b' s' t' h h'
  obtain ⟨a, s₁, ha, hb⟩ := bind_eq_ok.mp h
  obtain ⟨a', t₁, ha', hb'⟩ := bind_eq_ok.mp h'
  obtain rfl := hx _ _ _ _ _ _ ha ha'
  exact hf a _ _ _ _ _ _ hb hb'

end Pass

namespace Lowering

open Code Pass

variable {env : LowerEnv} {callee callee' : Callee} {line line' : Line} {name : String}
  {d d' : Nat} {s s' t t' : Supply}

theorem fixed_callee (type : TypeId) (name : String) : Fixed (env.callee type name) := by
  refine .bind ?_ fun scope => .bind (fixed_promised _ _) fun symbol =>
    .bind (fixed_promised _ _) fun kind => .bind (fixed_promised _ _) fun method =>
    .bind (fixed_promised _ _) fun layout => .bind (fixed_promised _ _) fun entry => fixed_pure _
  unfold LowerEnv.classScope
  split
  · exact fixed_pure _
  · intro s t a b s' t' h
    cases h

theorem blank_result (callee : Callee) (d d' : Nat) :
    (callee.result d).blank = (callee.result d').blank := by
  unfold Callee.result
  split <;> rfl

theorem blank_bindings {m : MethodDecl} {base base' : Nat}
    {bindings bindings' : List (String × Register)}
    (h : env.bindings m base s = .ok bindings s')
    (h' : env.bindings m base' t = .ok bindings' t') :
    (bindings.map fun b => (b.1, b.2.blank)) = bindings'.map fun b => (b.1, b.2.blank) := by
  obtain ⟨scope, hscope, rfl⟩ := eq_bindings h
  obtain ⟨scope', hscope', rfl⟩ := eq_bindings h'
  obtain rfl := Option.some.inj (hscope.symm.trans hscope')
  simp [Function.comp_def]

theorem blank_staticCallLine (h : env.staticCallLine callee name d s = .ok line s')
    (h' : env.staticCallLine callee name d' t = .ok line' t') : line.blank = line'.blank := by
  rcases eq_staticCallLine h with ⟨hkind, rfl⟩ | ⟨hkind, bindings, s₁, hb, rfl⟩
  · rcases eq_staticCallLine h' with ⟨_, rfl⟩ | ⟨hkind', _⟩
    · simp [Line.blank, Function.comp_def, Operand.r, Operand.blank, blank_result callee d d']
    · exact absurd hkind hkind'
  · rcases eq_staticCallLine h' with ⟨hkind', _⟩ | ⟨_, bindings', s₂, hb', rfl⟩
    · exact absurd hkind' hkind
    · simp only [Line.blank, blank_bindings hb hb', blank_result callee d d']

theorem blank_virtualCallLine (h : env.virtualCallLine callee d s = .ok line s')
    (h' : env.virtualCallLine callee d' t = .ok line' t') : line.blank = line'.blank := by
  obtain ⟨slot, bindings, s₁, hslot, hb, rfl⟩ := eq_virtualCallLine h
  obtain ⟨slot', bindings', s₂, hslot', hb', rfl⟩ := eq_virtualCallLine h'
  obtain rfl := Option.some.inj (hslot.symm.trans hslot')
  simp only [Line.blank, blank_bindings hb hb', blank_result callee d d',
    Register.blank_general]

theorem isCall_staticCallLine (h : env.staticCallLine callee name d s = .ok line s') :
    line.isCall = true := by
  rcases eq_staticCallLine h with ⟨_, rfl⟩ | ⟨_, _, _, _, rfl⟩ <;> rfl

theorem isCall_virtualCallLine (h : env.virtualCallLine callee d s = .ok line s') :
    line.isCall = true := by
  obtain ⟨_, _, _, _, _, rfl⟩ := eq_virtualCallLine h
  rfl

theorem LoweredPair.rightFirst_eq {left right : Expr} {d : Nat} {s s' : Supply}
    {rightFirst : Bool} {l r : Code × Operand}
    (h : LoweredPair env left right d s rightFirst l r s') :
    env.strategy.rightFirst left right = rightFirst := by
  cases h with
  | leftFirst horder => exact horder
  | rightFirst horder => exact horder

end Lowering

open Lowering in
/-- A call comes to one line, the numbers of the registers apart. -/
theorem LowerEnv.Makes.blank_eq {env : LowerEnv} {x : Expr} {line line' : Line}
    (h : env.Makes x line) (h' : env.Makes x line') : line.blank = line'.blank := by
  cases h with
  | staticCall hc hcallee hline =>
    cases h' with
    | staticCall hc' hcallee' hline' =>
      obtain rfl := Option.some.inj (hc.symm.trans hc')
      obtain rfl := fixed_callee _ _ _ _ _ _ _ _ hcallee hcallee'
      exact blank_staticCallLine hline hline'
  | ownStatic hcallee hkind hline =>
    cases h' with
    | ownStatic hcallee' _ hline' =>
      obtain rfl := fixed_callee _ _ _ _ _ _ _ _ hcallee hcallee'
      exact blank_staticCallLine hline hline'
    | ownVirtual hcallee' hkind' _ =>
      obtain rfl := fixed_callee _ _ _ _ _ _ _ _ hcallee hcallee'
      rw [hkind] at hkind'
      cases hkind'
  | ownVirtual hcallee hkind hline =>
    cases h' with
    | ownStatic hcallee' hkind' _ =>
      obtain rfl := fixed_callee _ _ _ _ _ _ _ _ hcallee hcallee'
      rw [hkind] at hkind'
      cases hkind'
    | ownVirtual hcallee' _ hline' =>
      obtain rfl := fixed_callee _ _ _ _ _ _ _ _ hcallee hcallee'
      exact blank_virtualCallLine hline hline'
  | methodCall htype hcallee hline =>
    cases h' with
    | methodCall htype' hcallee' hline' =>
      obtain rfl := Option.some.inj (htype.symm.trans htype')
      obtain rfl := fixed_callee _ _ _ _ _ _ _ _ hcallee hcallee'
      exact blank_virtualCallLine hline hline'

end IcLir
