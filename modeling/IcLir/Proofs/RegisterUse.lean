import IcLir.Proofs.SourceCalls
import IcLir.Proofs.ExpressionRefinement
import IcLir.Proofs.StaticCode

/-
  The registers of expression code. `UsesOnly allowed` says of an operand, a line or code that its
  numbered registers, read or written, are among the allowed ones, and that there is no other
  register but the one for results that nobody reads. There is one rule for each line and each
  template. The code of an expression at base register `d` uses registers from `d` on and comes
  to an operand in `d`, or behind `d` and `d + 1` (`Lowered.staysFrom`). So a run of the code leaves
  the registers below `d` alone, whatever the routines do that it calls (`RunsIn.registers_eq`).
-/

namespace IcLir

open Lowering

/-! ## Registers in code -/

/-- The registers through which an operand is reached. -/
def Operand.registers : Operand → List Register
  | .reg x => [x]
  | .field base _ => [.general base]
  | .element base index => [.general base, .general index]
  | .int _ | .label _ | .slot _ => []

def Line.registers (line : Line) : List Register := line.operands.flatMap Operand.registers

def Code.registers (code : Code) : List Register := code.flatMap Line.registers

/-- The register that an instruction changes. -/
def Instr.written? : Instr → Option Register
  | .move _ (.reg r) => some r
  | .arrayLength _ r | .arith _ _ r | .xor _ r | .neg r | .library _ _ r | .staticCall _ _ r
  | .virtualCall _ _ _ r => some r
  | .move .. | .compare .. | .jump .. | .ret _ => none

def Line.written? : Line → Option Register
  | .label _ => none
  | .instr i => i.written?

/-- A register with an allowed number, or the one for results that nobody reads. -/
def Register.Within (allowed : Nat → Prop) : Register → Prop
  | .general n => allowed n
  | .scratch _ => False
  | .discard => True

def Operand.UsesOnly (allowed : Nat → Prop) (o : Operand) : Prop :=
  ∀ x ∈ o.registers, x.Within allowed

def Line.UsesOnly (allowed : Nat → Prop) (line : Line) : Prop :=
  ∀ x ∈ line.registers, x.Within allowed

def Code.UsesOnly (allowed : Nat → Prop) (code : Code) : Prop :=
  ∀ x ∈ code.registers, x.Within allowed

/-- What lowering gives for a value at base register `d`: a literal, a variable, register `d`, a
    field of the object in it, or an element of an array in `d` and `d + 1`, with its index. -/
def Operand.IsAt (d : Nat) : Operand → Prop
  | .int _ | .label _ | .slot _ => True
  | .reg x => x = .general d
  | .field base _ => base = d
  | .element base index => base = d ∧ index = d + 1 ∨ base = d + 1 ∧ index = d

/-- An operand in no register: a literal, a variable or the receiver. -/
def Operand.isHeld (o : Operand) : Bool := o.isLiteral || o.isSlot

section

variable {allowed allowed' : Nat → Prop}

@[simp] theorem Register.within_general {n : Nat} : (general n).Within allowed ↔ allowed n :=
  Iff.rfl

theorem Register.Within.mono {x : Register} (h : x.Within allowed)
    (hall : ∀ n, allowed n → allowed' n) : x.Within allowed' := by
  cases x with
  | general n => exact hall n h
  | scratch n => exact h
  | discard => trivial

theorem Callee.within_result (callee : Callee) {d : Nat} (h : allowed d) :
    (callee.result d).Within allowed := by
  unfold result
  split
  · exact h
  · trivial

namespace Operand

@[simp] theorem usesOnly_reg {x : Register} : (reg x).UsesOnly allowed ↔ x.Within allowed := by
  simp [UsesOnly, registers]

@[simp] theorem usesOnly_r {n : Nat} : (r n).UsesOnly allowed ↔ allowed n := usesOnly_reg

@[simp] theorem usesOnly_int (value : Int) : (int value).UsesOnly allowed :=
  fun _ h => absurd h List.not_mem_nil

@[simp] theorem usesOnly_label (name : String) : (label name).UsesOnly allowed :=
  fun _ h => absurd h List.not_mem_nil

@[simp] theorem usesOnly_slot (name : String) : (slot name).UsesOnly allowed :=
  fun _ h => absurd h List.not_mem_nil

@[simp] theorem usesOnly_receiver : receiver.UsesOnly allowed := usesOnly_slot "this"

@[simp] theorem usesOnly_field {base offset : Nat} :
    (field base offset).UsesOnly allowed ↔ allowed base := by
  simp [UsesOnly, registers]

@[simp] theorem usesOnly_element {base index : Nat} :
    (element base index).UsesOnly allowed ↔ allowed base ∧ allowed index := by
  simp [UsesOnly, registers]

theorem IsAt.usesOnly {o : Operand} {d : Nat} (h : o.IsAt d) (hd : allowed d)
    (hnext : allowed (d + 1)) : o.UsesOnly allowed := by
  cases o with
  | int | label | slot => simp
  | reg x =>
    rw [show x = .general d from h]
    exact usesOnly_r.mpr hd
  | field base offset =>
    rw [show base = d from h]
    exact usesOnly_field.mpr hd
  | element base index =>
    rcases h with ⟨rfl, rfl⟩ | ⟨rfl, rfl⟩
    · exact usesOnly_element.mpr ⟨hd, hnext⟩
    · exact usesOnly_element.mpr ⟨hnext, hd⟩

theorem IsAt.of_isHeld {o : Operand} {d : Nat} (h : o.isHeld = true) : o.IsAt d := by
  cases o with
  | int | label | slot => trivial
  | reg | field | element => cases h

end Operand

/-! ## Lines -/

namespace Line

theorem usesOnly_iff {line : Line} :
    line.UsesOnly allowed ↔ ∀ o ∈ line.operands, o.UsesOnly allowed := by
  simp only [UsesOnly, registers, List.mem_flatMap, forall_exists_index, and_imp,
    Operand.UsesOnly]
  exact ⟨fun h o ho x hx => h x o ho hx, fun h x o ho hx => h o ho x hx⟩

@[simp] theorem usesOnly_label (name : String) : (label name).UsesOnly allowed :=
  fun _ h => absurd h List.not_mem_nil

section

variable {x y : Register}

@[simp low] theorem usesOnly_instr {i : Instr} :
    (instr i).UsesOnly allowed ↔ ∀ o ∈ i.operands, o.UsesOnly allowed := usesOnly_iff

@[simp] theorem usesOnly_library {routine : String} {args : List Operand} :
    (instr (.library routine args x)).UsesOnly allowed ↔
      (∀ o ∈ args, o.UsesOnly allowed) ∧ x.Within allowed := by
  simp [or_imp, forall_and]

@[simp] theorem usesOnly_unaryCode {op : UnaryOp} {d : Nat} :
    (instr (unaryCode op d)).UsesOnly allowed ↔ allowed d := by
  cases op <;> simp [unaryCode]

theorem usesOnly_bindings {bindings : List (String × Register)} :
    (∀ o ∈ bindings.flatMap fun b => [Operand.slot b.1, .reg b.2], o.UsesOnly allowed) ↔
      ∀ b ∈ bindings, b.2.Within allowed := by
  simp only [List.mem_flatMap, List.mem_cons, List.not_mem_nil, or_false, forall_exists_index,
    and_imp]
  constructor
  · intro h b hb
    exact Operand.usesOnly_reg.mp (h _ b hb (.inr rfl))
  · rintro h o b hb (rfl | rfl)
    · exact Operand.usesOnly_slot b.1
    · exact Operand.usesOnly_reg.mpr (h b hb)

@[simp] theorem usesOnly_staticCall {label : String} {bindings : List (String × Register)} :
    (instr (.staticCall label bindings x)).UsesOnly allowed ↔
      (∀ b ∈ bindings, b.2.Within allowed) ∧ x.Within allowed := by
  rw [usesOnly_iff, operands, Instr.operands, List.forall_mem_append, usesOnly_bindings]
  simp

@[simp] theorem usesOnly_virtualCall {slot : Nat} {bindings : List (String × Register)} :
    (instr (.virtualCall y slot bindings x)).UsesOnly allowed ↔
      y.Within allowed ∧ (∀ b ∈ bindings, b.2.Within allowed) ∧ x.Within allowed := by
  rw [usesOnly_iff, operands, Instr.operands, List.forall_mem_append, List.forall_mem_cons,
    usesOnly_bindings, and_assoc]
  simp

end

/-- A register that a line writes is one that it uses. -/
theorem UsesOnly.written {line : Line} (h : line.UsesOnly allowed) {x : Register}
    (hx : line.written? = some x) : x.Within allowed := by
  refine Operand.usesOnly_reg.mp (usesOnly_iff.mp h (.reg x) ?_)
  cases line with
  | label => cases hx
  | instr i =>
    cases i with
    | move src dst =>
      cases dst with
      | reg y => simp_all [written?, Instr.written?, operands, Instr.operands]
      | int | label | slot | field | element => cases hx
    | compare | jump | ret => cases hx
    | arrayLength | arith | xor | neg | library | staticCall | virtualCall =>
      simp_all [written?, Instr.written?, operands, Instr.operands]

end Line

theorem Guard.usesOnly_call (g : Guard) {numbers : List Nat} (h : ∀ n ∈ numbers, allowed n) :
    (g.call numbers).UsesOnly allowed := by
  refine Line.usesOnly_staticCall.mpr ⟨fun b hb => ?_, trivial⟩
  obtain ⟨n, hn, hb⟩ := List.mem_map.mp (List.of_mem_zip hb).2
  rw [← hb]
  exact h n hn

namespace Code

@[simp] theorem usesOnly_nil : UsesOnly allowed [] := fun _ h => absurd h List.not_mem_nil

@[simp] theorem usesOnly_cons {line : Line} {code : Code} :
    UsesOnly allowed (line :: code) ↔ line.UsesOnly allowed ∧ code.UsesOnly allowed := by
  simp [UsesOnly, registers, Line.UsesOnly, or_imp, forall_and]

@[simp] theorem usesOnly_append {a b : Code} :
    UsesOnly allowed (a ++ b) ↔ a.UsesOnly allowed ∧ b.UsesOnly allowed := by
  simp [UsesOnly, registers, or_imp, forall_and]

theorem UsesOnly.mono {code : Code} (h : code.UsesOnly allowed)
    (hall : ∀ n, allowed n → allowed' n) : code.UsesOnly allowed' :=
  fun x hx => (h x hx).mono hall

theorem UsesOnly.line {code : Code} (h : code.UsesOnly allowed) {line : Line}
    (hline : line ∈ code) : line.UsesOnly allowed :=
  fun x hx => h x (List.mem_flatMap.mpr ⟨line, hline, hx⟩)

theorem usesOnly_load {o : Operand} {n : Nat} (ho : o.UsesOnly allowed) (hn : allowed n) :
    (load o n).UsesOnly allowed := by
  unfold load
  split
  · exact usesOnly_nil
  · simp [ho, hn]

/-- An operand that is not loaded is in the register already. -/
theorem UsesOnly.of_load {o : Operand} {n : Nat} (h : (load o n).UsesOnly allowed)
    (hn : allowed n) : o.UsesOnly allowed := by
  unfold load at h
  split at h
  · next hthere =>
    rw [show o = .r n from of_decide_eq_true hthere]
    exact Operand.usesOnly_r.mpr hn
  · exact Line.usesOnly_instr.mp (usesOnly_cons.mp h).1 o (.head _)

end Code

/-! ## The code of operations -/

namespace Lowering

open Code

variable {l r : Code × Operand} {d : Nat}

/-- The code of two operands, the one that is evaluated first loaded into register `d`. -/
def PairUsesOnly (allowed : Nat → Prop) (rightFirst : Bool) (d : Nat) (l r : Code × Operand) :
    Prop :=
  match rightFirst with
  | false => UsesOnly allowed (l.1 ++ load l.2 d) ∧ UsesOnly allowed (r.1 ++ load r.2 (d + 1))
  | true => UsesOnly allowed (r.1 ++ load r.2 d) ∧ UsesOnly allowed (l.1 ++ load l.2 (d + 1))

theorem usesOnly_rightOperand {o : Operand} {n : Nat} (h : (load o n).UsesOnly allowed)
    (hn : allowed n) (strategy : Strategy) (keep : Bool) :
    (rightOperand strategy keep o n).1.UsesOnly allowed ∧
      (rightOperand strategy keep o n).2.UsesOnly allowed := by
  unfold rightOperand
  split
  · exact ⟨usesOnly_nil, h.of_load hn⟩
  · exact ⟨h, Operand.usesOnly_r.mpr hn⟩

/-- What holds of the registers of two operands that are ready for use. -/
structure Operands.UsesOnly (allowed : Nat → Prop) (os : Operands) : Prop where
  code : os.code.UsesOnly allowed
  left : allowed os.left
  right : os.right.UsesOnly allowed

theorem usesOnly_operands {rightFirst : Bool} (h : PairUsesOnly allowed rightFirst d l r)
    (hd : allowed d) (hnext : allowed (d + 1)) (strategy : Strategy) (keep : Bool) :
    (operands strategy rightFirst keep d l r).UsesOnly allowed := by
  cases rightFirst with
  | false =>
    obtain ⟨hl, hr⟩ := h
    rw [usesOnly_append] at hr
    have hright := usesOnly_rightOperand hr.2 hnext strategy keep
    refine ⟨?_, hd, hright.2⟩
    simp only [operands, Bool.false_eq_true, if_false, List.append_assoc]
    rw [← List.append_assoc]
    exact usesOnly_append.mpr ⟨hl, usesOnly_append.mpr ⟨hr.1, hright.1⟩⟩
  | true =>
    obtain ⟨hr, hl⟩ := h
    rw [usesOnly_append] at hr
    have hright := usesOnly_rightOperand hr.2 hd strategy keep
    refine ⟨?_, hnext, hright.2⟩
    simp only [operands, if_true, List.append_assoc]
    exact usesOnly_append.mpr ⟨hr.1, usesOnly_append.mpr ⟨hright.1, hl⟩⟩

theorem usesOnly_indexCode {rightFirst : Bool} (h : PairUsesOnly allowed rightFirst d l r)
    (hd : allowed d) (hnext : allowed (d + 1)) :
    (indexCode rightFirst l r d).1.UsesOnly allowed := by
  have hnull : ∀ n, allowed n → (Guard.nullRef.call [n]).UsesOnly allowed :=
    fun n hn => Guard.usesOnly_call _ (by simpa using hn)
  have haccess : ∀ a i, allowed a → allowed i →
      (Guard.arrayAccess.call [a, i]).UsesOnly allowed :=
    fun a i ha hi => Guard.usesOnly_call _ (by simpa using ⟨ha, hi⟩)
  cases rightFirst with
  | false =>
    obtain ⟨hl, hr⟩ := h
    rw [usesOnly_append] at hl hr
    simp [indexCode, hl, hr, hnull d hd, haccess d (d + 1) hd hnext]
  | true =>
    obtain ⟨hr, hl⟩ := h
    rw [usesOnly_append] at hl hr
    simp [indexCode, hl, hr, hnull (d + 1) hnext, haccess (d + 1) d hnext hd]

theorem isAt_indexCode (rightFirst : Bool) : (indexCode rightFirst l r d).2.IsAt d := by
  cases rightFirst with
  | false => exact .inl ⟨rfl, rfl⟩
  | true => exact .inr ⟨rfl, rfl⟩

section

variable {os : Operands}

theorem usesOnly_compareCode (h : os.UsesOnly allowed) (hd : allowed d) (op : CompareOp)
    (labels : LabelSet) : (compareCode op labels os d).UsesOnly allowed := by
  simp [compareCode, h.code, h.left, h.right, hd]

theorem usesOnly_operationCode (h : os.UsesOnly allowed) (hd : allowed d) (isConcat : Bool)
    (op : ArithOp) : (operationCode isConcat op os d).UsesOnly allowed := by
  unfold operationCode
  split
  · simp [concatCode, libraryCall, h.code, h.left, h.right, hd]
  · have hguard : Code.UsesOnly allowed (divisorGuard op os.right) := by
      rcases divisorGuard_cases op os.right with hnil | ⟨n, hn, hcall⟩
      · rw [hnil]
        exact usesOnly_nil
      · have hright := h.right
        rw [hn, Operand.usesOnly_r] at hright
        rw [hcall]
        exact usesOnly_cons.mpr ⟨Guard.usesOnly_call _ (by simpa using hright), usesOnly_nil⟩
    have hload := usesOnly_load (Operand.usesOnly_r.mpr h.left) hd
    simp [arithCode, h.code, h.left, h.right, hguard, hload]

end

theorem usesOnly_logicCode (hl : UsesOnly allowed (l.1 ++ load l.2 d))
    (hr : UsesOnly allowed (r.1 ++ load r.2 d)) (hd : allowed d) (op : LogicOp)
    (labels : LabelSet) : (logicCode op labels l r d).UsesOnly allowed := by
  rw [usesOnly_append] at hl hr
  cases op <;> simp [logicCode, logicTest, hl, hr, hd]

theorem usesOnly_staticCallLine {env : LowerEnv} {callee : Callee} {name : String} {s s' : Supply}
    {line : Line} (h : env.staticCallLine callee name d s = .ok line s')
    (hd : ∀ i, allowed (d + i)) : line.UsesOnly allowed := by
  have hresult : (callee.result d).Within allowed := callee.within_result (hd 0)
  rcases eq_staticCallLine h with ⟨_, rfl⟩ | ⟨_, bindings, _, hbindings, rfl⟩
  · simp [hresult, hd]
  · obtain ⟨scope, _, rfl⟩ := eq_bindings hbindings
    simp only [Line.usesOnly_staticCall, List.mem_map, forall_exists_index, and_imp]
    refine ⟨?_, hresult⟩
    rintro _ p _ rfl
    exact hd p.2

theorem usesOnly_virtualCallLine {env : LowerEnv} {callee : Callee} {s s' : Supply}
    {line : Line} (h : env.virtualCallLine callee d s = .ok line s')
    (hd : ∀ i, allowed (d + i)) : line.UsesOnly allowed := by
  have hresult : (callee.result d).Within allowed := callee.within_result (hd 0)
  obtain ⟨slot, bindings, _, _, hbindings, rfl⟩ := eq_virtualCallLine h
  obtain ⟨scope, _, rfl⟩ := eq_bindings hbindings
  simp only [Line.usesOnly_virtualCall, List.mem_map, forall_exists_index, and_imp]
  refine ⟨hd 0, ?_, hresult⟩
  rintro _ p _ rfl
  rw [Register.within_general, Nat.add_assoc]
  exact hd (1 + p.2)

end Lowering

end

/-! ## Expressions -/

namespace Lowering

open Code

variable {env : LowerEnv}

section

variable {d : Nat} {r : Code × Operand}

theorem usesOnly_load_of_isAt {o : Operand} (h : o.IsAt d) : (load o d).UsesOnly (d ≤ ·) :=
  usesOnly_load (h.usesOnly (Nat.le_refl d) (Nat.le_succ d)) (Nat.le_refl d)

/-- The code of an expression uses registers from `d` on and comes to an operand there. -/
structure StaysFrom (d : Nat) (r : Code × Operand) : Prop where
  code : r.1.UsesOnly (d ≤ ·)
  operand : r.2.IsAt d

namespace StaysFrom

theorem load (h : StaysFrom d r) : UsesOnly (d ≤ ·) (r.1 ++ load r.2 d) :=
  usesOnly_append.mpr ⟨h.code, usesOnly_load_of_isAt h.operand⟩

theorem load_next (h : StaysFrom (d + 1) r) : UsesOnly (d ≤ ·) (r.1 ++ Code.load r.2 (d + 1)) :=
  h.load.mono fun _ hn => Nat.le_of_succ_le hn

/-- An operation on the value in register `d`. -/
theorem operation (h : StaysFrom d r) {lines : Code} (hlines : lines.UsesOnly (d ≤ ·))
    {o : Operand} (ho : o.IsAt d) : StaysFrom d (r.1 ++ Code.load r.2 d ++ lines, o) :=
  ⟨usesOnly_append.mpr ⟨h.load, hlines⟩, ho⟩

end StaysFrom

theorem usesOnly_guard (g : Guard) : (g.call [d]).UsesOnly (d ≤ ·) :=
  Guard.usesOnly_call g (by simp)

theorem usesOnly_guardLine (g : Guard) : Code.UsesOnly (d ≤ ·) [g.call [d]] :=
  usesOnly_cons.mpr ⟨usesOnly_guard g, usesOnly_nil⟩

theorem usesOnly_lengthLines : Code.UsesOnly (d ≤ ·)
    [Guard.nullRef.call [d], .instr (.arrayLength (.general d) (.general d))] := by
  simp [usesOnly_guard]

theorem usesOnly_allocationLines : Code.UsesOnly (d ≤ ·)
    [.instr (.arith .mul (.int 4) (.general d)), Guard.size.call [d],
      libraryCall "__allocateArray" [.r d] d] := by
  simp [usesOnly_guard, libraryCall]

theorem usesOnly_objectLines (size : Int) (label : String) : Code.UsesOnly (d ≤ ·)
    [libraryCall "__allocateObject" [.int size] d,
      .instr (.move (.label label) (.field d 0))] := by
  simp [libraryCall]

theorem usesOnly_receiverLine : Code.UsesOnly (d ≤ ·) [.instr (.move .receiver (.r d))] := by
  simp

theorem isHeld_literalOperand {value : Literal} {s s' : Supply} {o : Operand}
    (h : literalOperand value s = .ok o s') : o.isHeld = true := by
  cases value with
  | int | null =>
    obtain ⟨rfl, _⟩ := EStateM.Result.ok.inj h
    rfl
  | bool b =>
    cases b <;>
    · obtain ⟨rfl, _⟩ := EStateM.Result.ok.inj h
      rfl
  | string text =>
    obtain ⟨label, _, _, hrest⟩ := Pass.bind_eq_ok.mp h
    obtain ⟨rfl, _⟩ := EStateM.Result.ok.inj hrest
    rfl

theorem usesOnly_call {lines args : Code} {line : Line} (hlines : lines.UsesOnly (d ≤ ·))
    (hargs : args.UsesOnly (d ≤ ·)) (hline : line.UsesOnly (d ≤ ·)) :
    UsesOnly (d ≤ ·) (lines ++ args ++ [line]) := by
  simp [hlines, hargs, hline]

end

mutual

theorem Lowered.staysFrom (h : Lowered env e d s r s') : StaysFrom d r := by
  match h with
  | .literal hv => exact ⟨usesOnly_nil, .of_isHeld (isHeld_literalOperand hv)⟩
  | .var _ => exact ⟨usesOnly_nil, trivial⟩
  | .ownField _ _ => exact ⟨usesOnly_receiverLine, rfl⟩
  | .field hobject _ _ => exact hobject.staysFrom.operation (usesOnly_guardLine _) rfl
  | .index hpair =>
    exact ⟨usesOnly_indexCode hpair.usesOnly (Nat.le_refl d) (Nat.le_succ d), isAt_indexCode _⟩
  | .staticCall _ _ hargs hline | .ownStatic _ _ hargs hline =>
    exact ⟨usesOnly_call usesOnly_nil hargs.usesOnly
      (usesOnly_staticCallLine hline (Nat.le_add_right d)), rfl⟩
  | .ownVirtual _ _ hargs hline =>
    -- the receiver has register `d`, and the arguments follow it
    exact ⟨usesOnly_call usesOnly_receiverLine (hargs.usesOnly.mono fun _ => Nat.le_of_succ_le)
      (usesOnly_virtualCallLine hline (Nat.le_add_right d)), rfl⟩
  | .methodCall _ _ hobject hargs hline =>
    exact ⟨usesOnly_call (usesOnly_append.mpr ⟨hobject.staysFrom.load, usesOnly_guardLine _⟩)
      (hargs.usesOnly.mono fun _ => Nat.le_of_succ_le)
      (usesOnly_virtualCallLine hline (Nat.le_add_right d)), rfl⟩
  | .this => exact ⟨usesOnly_nil, trivial⟩
  | .newObject _ _ => exact ⟨usesOnly_objectLines _ _, rfl⟩
  | .newArray hsize => exact hsize.staysFrom.operation usesOnly_allocationLines rfl
  | .length harray => exact harray.staysFrom.operation usesOnly_lengthLines rfl
  | .logic hl hr =>
    exact ⟨usesOnly_logicCode hl.staysFrom.load hr.staysFrom.load (Nat.le_refl d) _ _, rfl⟩
  | .compare hpair =>
    exact ⟨usesOnly_compareCode (usesOnly_operands hpair.usesOnly (Nat.le_refl d)
      (Nat.le_succ d) _ _) (Nat.le_refl d) _ _, rfl⟩
  | .arith _ hpair =>
    exact ⟨usesOnly_operationCode (usesOnly_operands hpair.usesOnly (Nat.le_refl d)
      (Nat.le_succ d) _ _) (Nat.le_refl d) _ _, rfl⟩
  | .unary hoperand =>
    exact hoperand.staysFrom.operation
      (usesOnly_cons.mpr ⟨Line.usesOnly_unaryCode.mpr (Nat.le_refl d), usesOnly_nil⟩) rfl
  | .paren hinner => exact hinner.staysFrom

theorem LoweredPair.usesOnly (h : LoweredPair env left right d s rightFirst l r s') :
    PairUsesOnly (d ≤ ·) rightFirst d l r := by
  match h with
  | .leftFirst _ hl hr => exact ⟨hl.staysFrom.load, hr.staysFrom.load_next⟩
  | .rightFirst _ hr hl => exact ⟨hr.staysFrom.load, hl.staysFrom.load_next⟩

theorem LoweredArgs.usesOnly (h : LoweredArgs env es d s code s') : code.UsesOnly (d ≤ ·) := by
  match h with
  | .nil => exact usesOnly_nil
  | .cons he hes =>
    exact usesOnly_append.mpr
      ⟨he.staysFrom.load, hes.usesOnly.mono fun _ => Nat.le_of_succ_le⟩

end

end Lowering

/-! ## Runs -/

namespace Code

/-- A run through the text `whole` that stays in lines of `piece`. A call comes back to the
    line after it; whatever it does, it leaves the registers of its caller as they are, but for
    the one that takes the result. -/
inductive RunsIn (P : Platform) (whole piece : Code) :
    Code → Machine → Code → Machine → Prop where
  | refl {rest : Code} {m : Machine} : RunsIn P whole piece rest m rest m
  | step {line : Line} {rest rest' last : Code} {m m' m'' : Machine} :
    line ∈ piece → whole.step P (line :: rest) m = some (.running rest' m') →
    RunsIn P whole piece rest' m' last m'' → RunsIn P whole piece (line :: rest) m last m''
  | call {line : Line} {rest last : Code} {m m' m'' : Machine} :
    line ∈ piece → line.isCall = true →
    (∀ x, line.written? ≠ some x → m'.registers x = m.registers x) →
    RunsIn P whole piece rest m' last m'' → RunsIn P whole piece (line :: rest) m last m''

end Code

theorem Machine.registers_store {m m' : Machine} {w : Word} {dst : Operand}
    (h : m.store w dst = some m') {x : Register} (hx : dst ≠ .reg x) :
    m'.registers x = m.registers x := by
  cases dst with
  | reg y =>
    obtain rfl := Option.some.inj h
    exact m.set_registers_of_ne y w fun heq => hx (congrArg Operand.reg heq.symm)
  | slot | field | element =>
    obtain rfl := Option.some.inj h
    rfl
  | int | label => cases h

/-- An instruction changes no register but the one that it writes. -/
theorem Instr.registers_run {P : Platform} {m m' : Machine} {i : Instr}
    (h : i.run P m = some m') {x : Register} (hx : i.written? ≠ some x) :
    m'.registers x = m.registers x := by
  have hset : ∀ {y : Register} {w : Word}, some (m.set y w) = some m' → some y ≠ some x →
      m'.registers x = m.registers x := by
    intro y w heq hne
    obtain rfl := Option.some.inj heq
    exact m.set_registers_of_ne y w fun hxy => hne (congrArg some hxy.symm)
  cases i with
  | move src dst =>
    refine Machine.registers_store h fun hdst => hx ?_
    rw [hdst]
    rfl
  | arrayLength | arith | xor | neg => exact hset h hx
  | compare =>
    obtain rfl := Option.some.inj h
    rfl
  | library routine args result =>
    match args with
    | [left, right] =>
      rw [Instr.run] at h
      split at h
      · exact hset h hx
      · cases h
    | [] | [_] | _ :: _ :: _ :: _ => cases h
  | jump | staticCall | virtualCall | ret => cases h

namespace Code

variable {P : Platform} {whole piece rest rest' : Code} {m m' : Machine} {line : Line}

theorem registers_step (h : whole.step P (line :: rest) m = some (.running rest' m'))
    {x : Register} (hx : line.written? ≠ some x) : m'.registers x = m.registers x := by
  have hrun : ∀ {i : Instr}, (Line.instr i).written? ≠ some x →
      (i.run P m).map (Config.running rest) = some (.running rest' m') →
      m'.registers x = m.registers x := by
    intro i hne hi
    obtain ⟨m₁, hm₁, heq⟩ := Option.map_eq_some_iff.mp hi
    obtain ⟨_, rfl⟩ := Config.running.inj heq
    exact Instr.registers_run hm₁ hne
  cases line with
  | label name =>
    obtain ⟨_, rfl⟩ := Config.running.inj (Option.some.inj h)
    rfl
  | instr i =>
    cases i with
    | jump condition target =>
      rw [step] at h
      split at h
      · obtain ⟨_, _, heq⟩ := Option.map_eq_some_iff.mp h
        obtain ⟨_, rfl⟩ := Config.running.inj heq
        rfl
      · obtain ⟨_, rfl⟩ := Config.running.inj (Option.some.inj h)
        rfl
    | staticCall label bindings result =>
      -- only guards are steps, and one that lets the run go on changes nothing
      obtain ⟨g, _, heq⟩ := Option.map_eq_some_iff.mp h
      split at heq
      · cases heq
      · obtain ⟨_, rfl⟩ := Config.running.inj heq
        rfl
    | ret => cases h
    | move | arrayLength | arith | xor | neg | compare | library | virtualCall => exact hrun hx h

/-- A run in code that uses other registers only leaves a register alone. -/
theorem RunsIn.registers_eq {allowed : Nat → Prop} (h : RunsIn P whole piece rest m rest' m')
    (hpiece : piece.UsesOnly allowed) {n : Nat} (hn : ¬ allowed n) :
    m'.registers (.general n) = m.registers (.general n) := by
  have hkept : ∀ line ∈ piece, line.written? ≠ some (.general n) := fun line hline hwritten =>
    hn ((hpiece.line hline).written hwritten)
  induction h with
  | refl => rfl
  | step hline hstep _ ih => exact ih.trans (registers_step hstep (hkept _ hline))
  | call hline _ hregisters _ ih => exact ih.trans (hregisters _ (hkept _ hline))

end Code

/-! ## Expressions of accepted programs -/

section

open Code Definition Lowering TypeTable Typing

variable {options : Options} {p : Program} {c : Context} {i : Nat} {k : ClassDecl}
  {method : MethodDecl} {e : Expr}

/-- Lowering does not fail at an expression of an accepted program. -/
theorem exists_lowerExpr (hp : p.DistinctNodes) (hc : analyzed options p = .ok c)
    (hi : p.classes[i]? = some k) (hm : method ∈ k.methods) (hkind : method.kind ≠ .library)
    (he : e ∈ Stmt.exprsOfList method.body) (strategy : Strategy) (d : Nat) (s : Supply) :
    ∃ code o s', lowerExpr ⟨c, strategy, classId i⟩ e d s = .ok (code, o) s' := by
  obtain ⟨_, _, _, _, _, hlower⟩ :=
    exists_hasType_lowerExpr (accepts_of_analyzed hp hc) hi hm hkind he strategy d s
  exact hlower

/-- The code of an expression of a method body at base register `d` uses no register below `d`,
    and its operand is reached through `d` and `d + 1` alone. So no run of it, wherever the code
    stands, disturbs a value in a lower register. -/
theorem expression_code_keeps_to_its_registers (hp : p.DistinctNodes)
    (hc : analyzed options p = .ok c) (hi : p.classes[i]? = some k) (hm : method ∈ k.methods)
    (hkind : method.kind ≠ .library) (he : e ∈ Stmt.exprsOfList method.body)
    (strategy : Strategy) (d : Nat) (s : Supply) :
    ∃ code o s', lowerExpr ⟨c, strategy, classId i⟩ e d s = .ok (code, o) s' ∧
      code.UsesOnly (d ≤ ·) ∧ o.IsAt d ∧
      ∀ (P : Platform) (whole rest rest' : Code) (m m' : Machine),
        RunsIn P whole (code ++ load o d) rest m rest' m' →
        ∀ n < d, m'.registers (.general n) = m.registers (.general n) := by
  obtain ⟨code, o, s', hlower⟩ := exists_lowerExpr hp hc hi hm hkind he strategy d s
  have hstays := (lowered_of_ok hlower).staysFrom
  refine ⟨code, o, s', hlower, hstays.code, hstays.operand, ?_⟩
  intro P whole rest rest' m m' hrun n hn
  exact hrun.registers_eq hstays.load (Nat.not_le.mpr hn)

end

namespace Shapes

/-- `s.area(2)` -/
def scaledArea : Expr := .methodCall (node 27) (.var (node 28) (name "s")) (name "area")
  [.literal (node 29) (.int 2)]

theorem main_mem : main ∈ square.methods := .tail _ (.tail _ (.head _))

theorem scaledArea_mem : scaledArea ∈ Stmt.exprsOfList main.body :=
  List.mem_of_getElem? (i := 5) rfl

end Shapes

/-- The call `s.area(2)` leaves register 4 alone if its value goes to register 5. -/
theorem expression_code_keeps_to_its_registers_area :
    Shapes.scaledArea.calls = [Shapes.scaledArea] ∧
    ∃ code o s', lowerExpr ⟨Shapes.context, .pressureAware, TypeTable.classId 1⟩
        Shapes.scaledArea 5 .initial = .ok (code, o) s' ∧ code.UsesOnly (5 ≤ ·) ∧ o.IsAt 5 ∧
      ∀ (P : Platform) (whole rest rest' : Code) (m m' : Machine),
        Code.RunsIn P whole (code ++ Code.load o 5) rest m rest' m' →
        m'.registers (.general 4) = m.registers (.general 4) := by
  obtain ⟨code, o, s', hlower, hcode, ho, hruns⟩ :=
    expression_code_keeps_to_its_registers Shapes.distinctNodes Shapes.analyzed_program (i := 1)
      rfl Shapes.main_mem (by decide) Shapes.scaledArea_mem .pressureAware 5 .initial
  refine ⟨rfl, code, o, s', hlower, hcode, ho, ?_⟩
  intro P whole rest rest' m m' hrun
  exact hruns P whole rest rest' m m' hrun 4 (by decide)

end IcLir
