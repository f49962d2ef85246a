import IcLir.Proofs.ExpressionRuns
import IcLir.Proofs.RegisterUse
import IcLir.Proofs.RegisterWeights

/-
  How many registers expression code needs. `reach d r` is the highest register in the code that
  brings a value to register `d`, with one equation for each template. For an expression without
  calls it is found from the source: `need` counts the registers beyond the base under either
  strategy (`Lowered.reach_eq`). Under the pressure-aware strategy the count is at most the weight
  (`need_le_weight`), as long as the weight does not overflow.
-/

namespace IcLir

open Lowering

/-! ## The highest register -/

/-- The number of a register; those without one never count. -/
def Register.number : Register → Nat
  | .general n => n
  | .scratch _ | .discard => 0

def Register.highest (xs : List Register) : Nat := xs.foldr (fun x n => max x.number n) 0

def Operand.highest (o : Operand) : Nat := Register.highest o.registers

def Line.highest (line : Line) : Nat := Register.highest line.registers

/-- The highest number of a register in code. -/
def Code.highest (code : Code) : Nat := Register.highest code.registers

namespace Register

@[simp] theorem highest_nil : highest [] = 0 := rfl

@[simp] theorem highest_cons (x : Register) (xs : List Register) :
    highest (x :: xs) = max x.number (highest xs) := rfl

@[simp] theorem highest_append (xs ys : List Register) :
    highest (xs ++ ys) = max (highest xs) (highest ys) := by
  induction xs with
  | nil => simp
  | cons x xs ih => rw [List.cons_append, highest_cons, ih, highest_cons, Nat.max_assoc]

@[simp] theorem number_general (n : Nat) : (general n).number = n := rfl

theorem number_le_highest {x : Register} {xs : List Register} (h : x ∈ xs) :
    x.number ≤ highest xs := by
  induction h with
  | head => exact Nat.le_max_left ..
  | tail _ _ ih => exact Nat.le_trans ih (Nat.le_max_right ..)

end Register

namespace Operand

@[simp] theorem highest_r (n : Nat) : (r n).highest = n := Nat.max_zero n

@[simp] theorem highest_int (value : Int) : (int value).highest = 0 := rfl

@[simp] theorem highest_label (name : String) : (label name).highest = 0 := rfl

@[simp] theorem highest_receiver : receiver.highest = 0 := rfl

@[simp] theorem highest_field (base offset : Nat) : (field base offset).highest = base :=
  Nat.max_zero base

@[simp] theorem highest_element (base index : Nat) :
    (element base index).highest = max base index := by
  simp [highest, registers]

theorem highest_of_isHeld {o : Operand} (h : o.isHeld = true) : o.highest = 0 := by
  cases o with
  | int | label | slot => rfl
  | reg | field | element => cases h

end Operand

namespace Line

variable (src dst : Operand) (x y : Nat)

@[simp] theorem highest_label (name : String) : (label name).highest = 0 := rfl

@[simp] theorem highest_move : (instr (.move src dst)).highest = max src.highest dst.highest := by
  simp [highest, registers, operands, Instr.operands, Operand.highest]

@[simp] theorem highest_arrayLength :
    (instr (.arrayLength (.general x) (.general y))).highest = max x y := by
  simp [highest, registers, operands, Instr.operands, Operand.registers]

@[simp] theorem highest_arith (op : ArithOp) :
    (instr (.arith op src (.general x))).highest = max src.highest x := by
  simp [highest, registers, operands, Instr.operands, Operand.highest, Operand.registers]

@[simp] theorem highest_compare :
    (instr (.compare src (.general x))).highest = max src.highest x := by
  simp [highest, registers, operands, Instr.operands, Operand.highest, Operand.registers]

@[simp] theorem highest_jump (condition : Condition) (target : String) :
    (instr (.jump condition target)).highest = 0 := rfl

@[simp] theorem highest_libraryCall_one (routine : String) :
    (libraryCall routine [src] x).highest = max src.highest x := by
  simp [highest, registers, operands, Instr.operands, Operand.highest, Operand.registers,
    libraryCall]

@[simp] theorem highest_libraryCall_two (routine : String) :
    (libraryCall routine [src, dst] x).highest = max src.highest (max dst.highest x) := by
  simp [highest, registers, operands, Instr.operands, Operand.highest, Operand.registers,
    libraryCall]

@[simp] theorem highest_unaryCode (op : UnaryOp) : (instr (unaryCode op x)).highest = x := by
  cases op <;>
    simp [highest, registers, operands, Instr.operands, Operand.registers, unaryCode]

@[simp] theorem highest_nullRef : (Guard.nullRef.call [x]).highest = x := Nat.max_zero x

@[simp] theorem highest_size : (Guard.size.call [x]).highest = x := Nat.max_zero x

@[simp] theorem highest_zero : (Guard.zero.call [x]).highest = x := Nat.max_zero x

@[simp] theorem highest_arrayAccess : (Guard.arrayAccess.call [x, y]).highest = max x y :=
  congrArg (max x) (Nat.max_zero y)

end Line

namespace Code

@[simp] theorem highest_nil : highest [] = 0 := rfl

@[simp] theorem highest_cons (line : Line) (code : Code) :
    highest (line :: code) = max line.highest code.highest := by
  simp [highest, registers, Line.highest]

@[simp] theorem highest_append (a b : Code) : highest (a ++ b) = max a.highest b.highest := by
  simp [highest, registers]

/-- An operand that is not loaded is in the register already. -/
theorem highest_load_le_iff (o : Operand) (d n : Nat) :
    o.highest ≤ n ∧ (load o d).highest ≤ n ↔ o.highest ≤ n ∧ d ≤ n := by
  unfold load
  split
  · next h =>
    obtain rfl : o = .r d := of_decide_eq_true h
    simp
  · simp

@[simp] theorem load_r_self (d : Nat) : load (.r d) d = [] := if_pos (decide_eq_true rfl)

/-- Code that uses registers from `d` on uses those up to its highest. -/
theorem UsesOnly.le_of_highest_le {code : Code} {d n : Nat} (h : code.UsesOnly (d ≤ ·))
    (hn : code.highest ≤ n) : code.UsesOnly fun m => d ≤ m ∧ m ≤ n := by
  intro x hx
  have hle := Register.number_le_highest hx
  cases x with
  | general m => exact ⟨h _ hx, Nat.le_trans hle hn⟩
  | scratch m => exact h _ hx
  | discard => trivial

end Code

/-! ## The code of operations -/

namespace Lowering

open Code

/-- The highest register in the code that brings a value to register `d`. -/
def reach (d : Nat) (r : Code × Operand) : Nat := (r.1 ++ load r.2 d).highest

/-- The same, if register `d` is used as well. -/
def top (d : Nat) (r : Code × Operand) : Nat := max (reach d r) d

/-- The highest register for a right operand that goes to register `n`, unless it is kept where
    it is. -/
def rightTop (kept : Bool) (n : Nat) (r : Code × Operand) : Nat :=
  if kept then r.1.highest else top n r

/-- The highest register for an operation on two values. -/
def pairTop (rightFirst kept : Bool) (d : Nat) (l r : Code × Operand) : Nat :=
  if rightFirst then max (rightTop kept d r) (top (d + 1) l)
  else max (top d l) (rightTop kept (d + 1) r)

variable {l r : Code × Operand} {d : Nat}

theorem reach_le_top : reach d r ≤ top d r := Nat.le_max_left ..

theorem reach_r (code : Code) (d : Nat) : reach d (code, .r d) = code.highest := by
  simp [reach]

theorem top_of_reach {n : Nat} (h : reach d r = d + n) : top d r = d + n := by
  rw [top, h]
  omega

theorem reach_of_isHeld {o : Operand} (h : o.isHeld = true) : reach d ([], o) = d := by
  have hmove : load o d = [.instr (.move o (.r d))] := by
    cases o with
    | int | label | slot => rfl
    | reg | field | element => cases h
  simp [reach, hmove, Operand.highest_of_isHeld h]

/-- An operation on the value in register `d`. -/
theorem reach_operation {lines : Code} {o : Operand} (hlines : lines.highest = d)
    (ho : o.highest ≤ d) : reach d (r.1 ++ load r.2 d ++ lines, o) = top d r := by
  -- two maxima are equal if the same numbers bound them
  refine eq_of_forall_ge_iff fun n => ?_
  have hload := highest_load_le_iff o d n
  simp only [top, reach, highest_append, Nat.max_le]
  omega

theorem reach_indexCode (rightFirst : Bool) :
    reach d (indexCode rightFirst l r d) = pairTop rightFirst false d l r := by
  refine eq_of_forall_ge_iff fun n => ?_
  cases rightFirst with
  | false =>
    have hload := highest_load_le_iff (.element d (d + 1)) d n
    simp only [Operand.highest_element, Nat.max_le] at hload
    simp only [indexCode, pairTop, rightTop, top, reach, Bool.false_eq_true, if_false,
      highest_append, highest_cons, highest_nil, Line.highest_nullRef, Line.highest_arrayAccess,
      Nat.max_le]
    omega
  | true =>
    have hload := highest_load_le_iff (.element (d + 1) d) d n
    simp only [Operand.highest_element, Nat.max_le] at hload
    simp only [indexCode, pairTop, rightTop, top, reach, Bool.false_eq_true, if_false, if_true,
      highest_append, highest_cons, highest_nil, Line.highest_nullRef, Line.highest_arrayAccess,
      Nat.max_le]
    omega

section

variable (s : Strategy) (keep rightFirst : Bool)

theorem highest_rightOperand (r : Code × Operand) (n : Nat) :
    max (r.1 ++ (rightOperand s keep r.2 n).1).highest (rightOperand s keep r.2 n).2.highest =
      rightTop (keep && s = .pressureAware && r.2.isHeld) n r := by
  by_cases h : (keep && s = .pressureAware && r.2.isHeld) = true
  · have hheld : r.2.isHeld = true := (Bool.and_eq_true_iff.mp h).2
    have hkept : rightOperand s keep r.2 n = ([], r.2) := if_pos h
    simp [hkept, rightTop, h, Operand.highest_of_isHeld hheld]
  · have hloaded : rightOperand s keep r.2 n = (load r.2 n, .r n) := if_neg h
    rw [rightTop, if_neg h, hloaded, Operand.highest_r]
    rfl

/-- What an operation on two values mentions. -/
theorem highest_operands :
    max (operands s rightFirst keep d l r).code.highest
        (max (operands s rightFirst keep d l r).left
          (max (operands s rightFirst keep d l r).right.highest d)) =
      pairTop rightFirst (keep && s = .pressureAware && r.2.isHeld) d l r := by
  refine eq_of_forall_ge_iff fun n => ?_
  cases rightFirst with
  | false =>
    rw [pairTop, if_neg Bool.false_ne_true, ← highest_rightOperand]
    simp only [operands, Bool.false_eq_true, if_false, top, reach, highest_append, Nat.max_le]
    omega
  | true =>
    rw [pairTop, if_pos rfl, ← highest_rightOperand]
    simp only [operands, if_true, top, reach, highest_append, Nat.max_le]
    omega

theorem reach_compareCode (op : CompareOp) (labels : LabelSet) :
    reach d (compareCode op labels (operands s rightFirst keep d l r) d, .r d) =
      pairTop rightFirst (keep && s = .pressureAware && r.2.isHeld) d l r := by
  rw [reach_r, ← highest_operands]
  refine eq_of_forall_ge_iff fun n => ?_
  simp only [compareCode, highest_append, highest_cons, highest_nil, Line.highest_compare,
    Line.highest_jump, Line.highest_move, Line.highest_label, Operand.highest_int,
    Operand.highest_r, Nat.max_le]
  omega

theorem reach_operationCode (isConcat : Bool) (op : ArithOp) :
    reach d (operationCode isConcat op
        (operands s rightFirst (keepsRight isConcat op.divides) d l r) d, .r d) =
      pairTop rightFirst (keepsRight isConcat op.divides && s = .pressureAware && r.2.isHeld)
        d l r := by
  rw [reach_r, ← highest_operands]
  refine eq_of_forall_ge_iff fun n => ?_
  cases isConcat with
  | true =>
    simp only [operationCode, if_true, concatCode, highest_append, highest_cons, highest_nil,
      Line.highest_libraryCall_two, Operand.highest_r, Nat.max_le]
    omega
  | false =>
    have hload := highest_load_le_iff
      (.r (operands s rightFirst (keepsRight false op.divides) d l r).left) d n
    generalize operands s rightFirst (keepsRight false op.divides) d l r = os at hload ⊢
    have hguard : Code.highest (divisorGuard op os.right) ≤ os.right.highest := by
      rcases divisorGuard_cases op os.right with hnil | ⟨n, hn, hcall⟩
      · rw [hnil]
        exact Nat.zero_le _
      · rw [hcall, hn]
        simp
    rw [Operand.highest_r] at hload
    simp only [operationCode, Bool.false_eq_true, if_false, arithCode, highest_append,
      highest_cons, highest_nil, Line.highest_arith, Nat.max_le]
    omega

end

theorem reach_logicCode (op : LogicOp) (labels : LabelSet) :
    reach d (logicCode op labels l r d, .r d) = max (top d l) (top d r) := by
  rw [reach_r]
  refine eq_of_forall_ge_iff fun n => ?_
  cases op <;>
  · simp only [logicCode, logicTest, top, reach, highest_append, highest_cons, highest_nil,
      Line.highest_compare, Line.highest_jump, Line.highest_move, Line.highest_label,
      Operand.highest_int, Operand.highest_r, Nat.max_le]
    omega

end Lowering

/-! ## Registers beyond the base -/

/-- A literal, the receiver or a local variable, which is used where it is. -/
def Context.isHeld (c : Context) : Expr → Bool
  | .literal .. | .this _ => true
  | .var node _ => match c.references.get? node.id with
    | some (.variable _) => true
    | _ => false
  | .paren _ inner => c.isHeld inner
  | _ => false

/-- How many registers beyond its base register an operation on two operands needs. -/
def pairNeed (rightFirst kept : Bool) (l r : Nat) : Nat :=
  if rightFirst then max r (l + 1) else if kept then l else max l (r + 1)

/-- How many registers beyond its base register the code of an expression needs. Calls are left
    out. -/
def Context.need (c : Context) (s : Strategy) : Expr → Nat
  | .field _ object _ => c.need s object
  | .length _ array => c.need s array
  | .newArray _ _ size => c.need s size
  | .unary _ _ operand => c.need s operand
  | .paren _ inner => c.need s inner
  | .index _ array i => pairNeed (s.rightFirst array i) false (c.need s array) (c.need s i)
  | .binary _ (.logic _) left right => max (c.need s left) (c.need s right)
  | .binary _ (.compare _) left right =>
    pairNeed (s.rightFirst left right) (true && s = .pressureAware && c.isHeld right)
      (c.need s left) (c.need s right)
  | .binary _ (.arith op) left right =>
    pairNeed (s.rightFirst left right)
      (keepsRight (c.joins op left) op.divides && s = .pressureAware && c.isHeld right)
      (c.need s left) (c.need s right)
  | .literal .. | .var .. | .this _ | .newObject .. | .staticCall .. | .ownCall ..
  | .methodCall .. => 0

theorem Context.weight_of_isHeld {c : Context} {e : Expr} (h : c.isHeld e = true) :
    e.weight = .zero := by
  match e with
  | .literal .. | .this _ | .var .. => rfl
  | .paren _ inner => exact weight_of_isHeld (e := inner) h

/-- An operand that can stay where it is never goes first. -/
theorem Context.rightFirst_of_isHeld {c : Context} {right : Expr} (h : c.isHeld right = true)
    (s : Strategy) (left : Expr) : s.rightFirst left right = false := by
  rw [Strategy.rightFirst, weight_of_isHeld h]
  cases left.weight with
  | bounded registers =>
    have hle : ¬ registers < 0 := UInt32.not_lt.mpr (UInt32.zero_le)
    simp [RegisterWeight.zero, RegisterWeight.prefersRight, hle]
  | unbounded => simp [RegisterWeight.prefersRight]

namespace Lowering

open Code

variable {env : LowerEnv}

variable {c : Context} {node : Node} {name : Ident} {scope : ScopeId} {strategy : Strategy}
    {left right : Expr} {l r : Code × Operand} {d nl nr : Nat}

theorem isHeld_var (h : c.references.get? node.id = some (.variable scope)) :
    c.isHeld (.var node name) = true := by
  simp [Context.isHeld, h]

theorem isHeld_ownField (h : c.references.get? node.id = some (.field scope)) :
    c.isHeld (.var node name) = false := by
  simp [Context.isHeld, h]

theorem isHeld_indexCode (rightFirst : Bool) (l r : Code × Operand) (d : Nat) :
    (indexCode rightFirst l r d).2.isHeld = false := by
  cases rightFirst <;> rfl

/-- An operand is kept if the source says so, and then it has no code. -/
theorem Lowered.isHeld_eq {e : Expr} {d : Nat} {s s' : Supply} {r : Code × Operand}
    (h : Lowered env e d s r s') :
    r.2.isHeld = env.context.isHeld e ∧ (r.2.isHeld = true → r.1 = []) := by
  match h with
  | .literal hv => exact ⟨isHeld_literalOperand hv, fun _ => rfl⟩
  | .var hv => exact ⟨(isHeld_var hv).symm, fun _ => rfl⟩
  | .this => exact ⟨rfl, fun _ => rfl⟩
  | .ownField hv _ =>
    exact ⟨(isHeld_ownField hv).symm, fun hheld => absurd hheld Bool.false_ne_true⟩
  | .index _ =>
    exact ⟨isHeld_indexCode .., fun h => absurd h (Bool.eq_false_iff.mp (isHeld_indexCode ..))⟩
  | .paren hinner => exact hinner.isHeld_eq
  | .field .. | .staticCall .. | .ownStatic .. | .ownVirtual .. | .methodCall .. | .newObject ..
  | .newArray .. | .length .. | .logic .. | .compare .. | .arith .. | .unary .. =>
    exact ⟨rfl, fun hheld => absurd hheld Bool.false_ne_true⟩

section

variable {l r : Code × Operand} {d n nl nr : Nat}

theorem reach_step {lines : Code} {o : Operand} (h : reach d r = d + n)
    (hlines : lines.highest = d) (ho : o.highest ≤ d) :
    reach d (r.1 ++ load r.2 d ++ lines, o) = d + n :=
  (reach_operation hlines ho).trans (top_of_reach h)

theorem reach_ownField (d offset : Nat) :
    reach d ([.instr (.move .receiver (.r d))], .field d offset) = d := by
  refine eq_of_forall_ge_iff fun n => ?_
  have hload := highest_load_le_iff (.field d offset) d n
  rw [Operand.highest_field] at hload
  simp only [reach, highest_append, highest_cons, highest_nil, Line.highest_move,
    Operand.highest_r, Operand.highest_receiver, Nat.max_le]
  omega

theorem reach_newObject (d : Nat) (size : Int) (label : String) :
    reach d ([libraryCall "__allocateObject" [.int size] d,
      .instr (.move (.label label) (.field d 0))], .r d) = d := by
  simp [reach]

theorem highest_guardLine (d : Nat) : Code.highest [Guard.nullRef.call [d]] = d := by simp

theorem highest_lengthLines (d : Nat) : Code.highest
    [Guard.nullRef.call [d], .instr (.arrayLength (.general d) (.general d))] = d := by
  simp

theorem highest_allocationLines (d : Nat) : Code.highest
    [.instr (.arith .mul (.int 4) (.general d)), Guard.size.call [d],
      libraryCall "__allocateArray" [.r d] d] = d := by
  simp

theorem highest_unaryLine (op : UnaryOp) (d : Nat) :
    Code.highest [.instr (unaryCode op d)] = d := by
  simp

theorem reach_logic (hl : reach d l = d + nl) (hr : reach d r = d + nr) (op : LogicOp)
    (labels : LabelSet) : reach d (logicCode op labels l r d, .r d) = d + max nl nr := by
  rw [reach_logicCode, top_of_reach hl, top_of_reach hr]
  omega

end

/-- The highest register of an operation on two operands, by what they need. -/
theorem pairTop_leftFirst (hfirst : strategy.rightFirst left right = false)
    (hl : reach d l = d + nl) (hr : reach (d + 1) r = d + 1 + nr)
    (hheld : r.2.isHeld = c.isHeld right ∧ (r.2.isHeld = true → r.1 = [])) (keep : Bool) :
    pairTop false (keep && strategy = .pressureAware && r.2.isHeld) d l r =
      d + pairNeed (strategy.rightFirst left right)
        (keep && strategy = .pressureAware && c.isHeld right) nl nr := by
  rw [hfirst, ← hheld.1, pairTop, pairNeed, if_neg Bool.false_ne_true, if_neg Bool.false_ne_true,
    rightTop]
  split
  · next hkept =>
    rw [top_of_reach hl, hheld.2 (Bool.and_eq_true_iff.mp hkept).2]
    exact Nat.max_zero _
  · rw [top_of_reach hl, top_of_reach hr]
    omega

theorem pairTop_rightFirst (hfirst : strategy.rightFirst left right = true)
    (hr : reach d r = d + nr) (hl : reach (d + 1) l = d + 1 + nl)
    (hheld : r.2.isHeld = c.isHeld right ∧ (r.2.isHeld = true → r.1 = [])) (keep : Bool) :
    pairTop true (keep && strategy = .pressureAware && r.2.isHeld) d l r =
      d + pairNeed (strategy.rightFirst left right)
        (keep && strategy = .pressureAware && c.isHeld right) nl nr := by
  have hnot : c.isHeld right = false := by
    cases h : c.isHeld right with
    | false => rfl
    | true =>
      rw [Context.rightFirst_of_isHeld h] at hfirst
      cases hfirst
  rw [hfirst, hheld.1, hnot, Bool.and_false, pairTop, pairNeed, if_pos rfl, if_pos rfl, rightTop,
    if_neg Bool.false_ne_true, top_of_reach hr, top_of_reach hl]
  omega

mutual

/-- The code of an expression without calls goes up to the register that its need says. -/
theorem Lowered.reach_eq {e : Expr} {d : Nat} {s s' : Supply} {r : Code × Operand}
    (h : Lowered env e d s r s') (hw : e.weight ≠ .unbounded) :
    reach d r = d + env.context.need env.strategy e := by
  match h with
  | .literal hv => exact reach_of_isHeld (isHeld_literalOperand hv)
  | .var _ => exact reach_of_isHeld rfl
  | .this => exact reach_of_isHeld rfl
  | .ownField _ _ => exact reach_ownField d _
  | .newObject _ _ => exact reach_newObject d _ _
  | .field hobject _ _ =>
    exact reach_step (hobject.reach_eq hw) (highest_guardLine d) (Nat.le_of_eq (Nat.max_zero d))
  | .length harray =>
    exact reach_step (harray.reach_eq hw) (highest_lengthLines d) (Nat.le_of_eq (Nat.max_zero d))
  | .newArray hsize =>
    exact reach_step (hsize.reach_eq hw) (highest_allocationLines d)
      (Nat.le_of_eq (Nat.max_zero d))
  | .unary hoperand =>
    exact reach_step (hoperand.reach_eq hw) (highest_unaryLine _ d)
      (Nat.le_of_eq (Nat.max_zero d))
  | .paren hinner => exact hinner.reach_eq hw
  | .logic hl hr =>
    have hsides := RegisterWeight.combine_ne_unbounded hw
    exact reach_logic (hl.reach_eq hsides.1) (hr.reach_eq hsides.2) _ _
  | .index hpair =>
    exact (reach_indexCode _).trans
      (hpair.pairTop_eq (RegisterWeight.combine_ne_unbounded hw) false)
  | .compare hpair =>
    exact (reach_compareCode ..).trans
      (hpair.pairTop_eq (RegisterWeight.combine_ne_unbounded hw) true)
  | .arith hconcat hpair =>
    obtain rfl := eq_joins_of_isConcat hconcat
    exact (reach_operationCode ..).trans
      (hpair.pairTop_eq (RegisterWeight.combine_ne_unbounded hw) _)
  | .staticCall .. | .ownStatic .. | .ownVirtual .. | .methodCall .. => exact absurd rfl hw

theorem LoweredPair.pairTop_eq {left right : Expr} {d : Nat} {s s' : Supply} {rightFirst : Bool}
    {l r : Code × Operand} (h : LoweredPair env left right d s rightFirst l r s')
    (hw : left.weight ≠ .unbounded ∧ right.weight ≠ .unbounded) (keep : Bool) :
    pairTop rightFirst (keep && env.strategy = .pressureAware && r.2.isHeld) d l r =
      d + pairNeed (env.strategy.rightFirst left right)
        (keep && env.strategy = .pressureAware && env.context.isHeld right)
        (env.context.need env.strategy left) (env.context.need env.strategy right) := by
  match h with
  | .leftFirst hfirst hl hr =>
    exact pairTop_leftFirst hfirst (hl.reach_eq hw.1) (hr.reach_eq hw.2) hr.isHeld_eq keep
  | .rightFirst hfirst hr hl =>
    exact pairTop_rightFirst hfirst (hr.reach_eq hw.2) (hl.reach_eq hw.1) hr.isHeld_eq keep

end

end Lowering

/-! ## Weights -/

namespace Expr

/-- A logical operation. -/
def isLogic : Expr → Bool
  | .binary _ (.logic _) _ _ => true
  | _ => false

end Expr

namespace Context

variable {c : Context} {e operand left right : Expr}

theorem need_of_operand? (h : e.operand? = some operand) (s : Strategy) :
    c.need s e = c.need s operand := by
  cases e with
  | field | length | newArray | unary | paren =>
    obtain rfl := Option.some.inj h
    rfl
  | _ => cases h

/-- Operands of logical operations share a register; those of others are both held at once unless
    the right one is kept where it is, which the baseline strategy never does. -/
theorem need_of_operands? (h : e.operands? = some (left, right)) :
    e.isLogic = true ∧ (∀ s, c.need s e = max (c.need s left) (c.need s right)) ∨
    e.isLogic = false ∧ ∀ s, ∃ kept, (s = .baseline → kept = false) ∧
      c.need s e = pairNeed (s.rightFirst left right) kept (c.need s left) (c.need s right) := by
  cases e with
  | index =>
    obtain ⟨rfl, rfl⟩ := Prod.mk.inj (Option.some.inj h)
    exact .inr ⟨rfl, fun s => ⟨_, fun _ => rfl, rfl⟩⟩
  | binary _ op =>
    obtain ⟨rfl, rfl⟩ := Prod.mk.inj (Option.some.inj h)
    cases op with
    | logic => exact .inl ⟨rfl, fun s => rfl⟩
    | compare | arith => exact .inr ⟨rfl, fun s => ⟨_, fun hs => by simp [hs], rfl⟩⟩
  | _ => cases h

theorem need_leaf (h : e.isLeaf = true) (s : Strategy) : c.need s e = 0 := by
  cases e with
  | literal | var | this | newObject => rfl
  | _ => cases h

/-- The weight is enough under the pressure-aware strategy. -/
theorem need_le_weight {w : UInt32} (hw : e.weight = .bounded w)
    (hsize : e.nodes.length.log2 < UInt32.size) : c.need .pressureAware e ≤ w.toNat := by
  refine Expr.weight_induction (motive := fun e n => c.need .pressureAware e ≤ n)
    ?leaf ?one ?two hw hsize
  case leaf =>
    intro e hleaf
    exact Nat.le_of_eq (need_leaf hleaf _)
  case one =>
    intro e operand n he ih
    rw [need_of_operand? he]
    exact ih
  case two =>
    intro e left right m n he hfirst ihl ihr
    rcases need_of_operands? he with ⟨_, hneed⟩ | ⟨_, hneed⟩
    · rw [hneed]
      split <;> omega
    · obtain ⟨kept, _, hneed⟩ := hneed .pressureAware
      have hright : Strategy.rightFirst .pressureAware left right = decide (m < n) := hfirst
      rw [hneed, pairNeed, hright]
      by_cases hlt : m < n
      · rw [if_pos (decide_eq_true hlt), if_neg (Nat.ne_of_lt hlt)]
        omega
      · rw [if_neg (by simpa using hlt)]
        split <;> split <;> omega

end Context

/-! ## Expressions of accepted programs -/

section

open Code TypeTable

variable {options : Options} {p : Program} {c : Context} {i : Nat} {k : ClassDecl}
  {method : MethodDecl} {e : Expr}

/-- An expression of a method body with weight `w` needs the registers from `d` to `d + w` and no
    others, if the heavier operands go first. Weights are 32-bit words, so an expression of
    2 ^ (2 ^ 32) nodes might have a weight that overflows. -/
theorem weight_bounds_registers (hp : p.DistinctNodes) (hc : analyzed options p = .ok c)
    (hi : p.classes[i]? = some k) (hm : method ∈ k.methods) (hkind : method.kind ≠ .library)
    (he : e ∈ Stmt.exprsOfList method.body) {w : UInt32} (hw : e.weight = .bounded w)
    (hsize : e.nodes.length.log2 < UInt32.size) (d : Nat) (s : Supply) :
    ∃ code o s', lowerExpr ⟨c, .pressureAware, classId i⟩ e d s = .ok (code, o) s' ∧
      (code ++ load o d).UsesOnly fun n => d ≤ n ∧ n ≤ d + w.toNat := by
  obtain ⟨code, o, s', hlower⟩ := exists_lowerExpr hp hc hi hm hkind he .pressureAware d s
  have hlowered := lowered_of_ok hlower
  have hreach : reach d (code, o) = d + c.need .pressureAware e :=
    hlowered.reach_eq (by simp [hw])
  have hneed : c.need .pressureAware e ≤ w.toNat := Context.need_le_weight hw hsize
  refine ⟨code, o, s', hlower, hlowered.staysFrom.load.le_of_highest_le ?_⟩
  calc (code ++ load o d).highest = d + c.need .pressureAware e := hreach
    _ ≤ d + w.toNat := Nat.add_le_add_left hneed d

end

namespace Verdict

open Shapes (node name type line mainOf)

/-- `(x / y == 2)` -/
def quotient : Expr := .paren (node 1) (.binary (node 2) (.compare .eq)
  (.binary (node 3) (.arith .div) (.var (node 4) (name "x")) (.var (node 5) (name "y")))
  (.literal (node 6) (.int 2)))

/-- `((a && a) && (a && a))` -/
def conjunction : Expr := .paren (node 7) (.binary (node 8) (.logic .and)
  (.paren (node 9) (.binary (node 10) (.logic .and) (.var (node 11) (name "a"))
    (.var (node 12) (name "a"))))
  (.paren (node 13) (.binary (node 14) (.logic .and) (.var (node 15) (name "a"))
    (.var (node 16) (name "a")))))

/-- `(x / y == 2) == ((a && a) && (a && a))` -/
def verdict : Expr := .binary (node 0) (.compare .eq) quotient conjunction

/-- `static void main(string[] args) { int x = 7; int y = 3; boolean a = true; boolean b =
    (x / y == 2) == ((a && a) && (a && a)); }` -/
def main : MethodDecl := mainOf 0 [
  .declare (node 0) (type .int) (name "x") (some (.literal (node 17) (.int 7))),
  .declare (node 1) (type .int) (name "y") (some (.literal (node 18) (.int 3))),
  .declare (node 2) (type .boolean) (name "a") (some (.literal (node 19) (.bool true))),
  .declare (node 3) (type .boolean) (name "b") (some verdict)]

def owner : ClassDecl := ⟨name "Main", none, [], [main]⟩

def program : Program := ⟨[owner]⟩

theorem distinctNodes : program.DistinctNodes := ⟨by decide, by decide, by decide⟩

/-- What the analysis of the program leaves. -/
@[irreducible] def context : Context := contextOf {} program

theorem analyzed_program : analyzed {} program = .ok context := by
  unfold context
  exact analyzed_eq_contextOf (by decide +kernel)

theorem verdict_mem : verdict ∈ Stmt.exprsOfList main.body := List.mem_of_getElem? (i := 3) rfl

theorem weight_verdict : verdict.weight = .bounded 2 := by decide

theorem log2_verdict : verdict.nodes.length.log2 < UInt32.size := by
  have hlength : verdict.nodes.length = 17 := by decide
  rw [hlength]
  decide

end Verdict

/-- Three registers are enough for `(x / y == 2) == ((a && a) && (a && a))`. -/
theorem weight_bounds_registers_verdict :
    Verdict.verdict.weight = .bounded 2 ∧
    ∃ code o s', lowerExpr ⟨Verdict.context, .pressureAware, TypeTable.classId 0⟩ Verdict.verdict 3
        .initial = .ok (code, o) s' ∧
      (code ++ Code.load o 3).UsesOnly fun n => 3 ≤ n ∧ n ≤ 5 := by
  obtain ⟨code, o, s', hlower, huses⟩ :=
    weight_bounds_registers Verdict.distinctNodes Verdict.analyzed_program (i := 0) rfl
      (List.mem_singleton_self Verdict.main) (by decide) Verdict.verdict_mem
      Verdict.weight_verdict Verdict.log2_verdict 3 .initial
  exact ⟨Verdict.weight_verdict, code, o, s', hlower, huses⟩

end IcLir
