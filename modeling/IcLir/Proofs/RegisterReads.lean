import IcLir.Proofs.CallArity
import IcLir.Proofs.OperandForms

/-
  Registers are written before they are read, with one exception. A call without a value leaves
  its result to the register that nobody reads, and yet the call comes to register `d` like any
  other. With an argument or a receiver, `d` has been written for that. A call of a static method
  that has neither (`Bare`) writes nothing, so that what uses its value reads whatever was left in
  `d` (`Awaits`). All other reads are behind a write in the text of the method. The invariant of
  the code of an expression is `Ready`: the registers that it reads, and those that it comes to,
  are available, and every bare call has been read or is still to be read.
-/

namespace IcLir

open Lowering

/-! ## Reads and writes -/

/-- The registers that are read for storing to an operand. -/
def Operand.address : Operand → List Register
  | .reg _ => []
  | o => o.registers

/-- The registers that an instruction reads. An operation on two operands reads both. -/
def Instr.reads : Instr → List Register
  | .move src dst => src.registers ++ dst.address
  | .arrayLength array _ => [array]
  | .arith _ src dst | .xor src dst | .compare src dst => src.registers ++ [dst]
  | .neg dst => [dst]
  | .jump .. => []
  | .library _ args _ => args.flatMap Operand.registers
  | .staticCall _ bindings _ => bindings.map Prod.snd
  | .virtualCall object _ bindings _ => object :: bindings.map Prod.snd
  | .ret value => value.registers

def Line.reads : Line → List Register
  | .label _ => []
  | .instr i => i.reads

namespace Operand

@[simp] theorem registers_r (n : Nat) : (r n).registers = [.general n] := rfl

@[simp] theorem registers_int (value : Int) : (int value).registers = [] := rfl

@[simp] theorem registers_receiver : receiver.registers = [] := rfl

@[simp] theorem registers_element (base index : Nat) :
    (element base index).registers = [.general base, .general index] := rfl

@[simp] theorem address_r (n : Nat) : (r n).address = [] := rfl

@[simp] theorem address_slot (name : String) : (slot name).address = [] := rfl

theorem registers_of_isHeld {o : Operand} (h : o.isHeld = true) : o.registers = [] := by
  cases o with
  | int | label | slot => rfl
  | reg | field | element => cases h

/-- What a value is stored to is no register. -/
theorem address_of_isStorage {o : Operand} (h : o.isStorage = true) : o.address = o.registers := by
  cases o with
  | reg | int | label => cases h
  | slot | field | element => rfl

end Operand

namespace Line

variable {src dst : Operand} {x : Register}

@[simp] theorem reads_label (name : String) : (label name).reads = [] := rfl

@[simp] theorem reads_jump (condition : Condition) (target : String) :
    (instr (.jump condition target)).reads = [] := rfl

@[simp] theorem reads_jumpLine (condition : Condition) (target : String) :
    (jumpLine condition target).reads = [] := rfl

@[simp] theorem reads_returnNothing : Code.returnNothing.reads = [] := rfl

@[simp] theorem reads_move : (instr (.move src dst)).reads = src.registers ++ dst.address := rfl

@[simp] theorem reads_library {routine : String} {args : List Operand} :
    (instr (.library routine args x)).reads = args.flatMap Operand.registers := rfl

@[simp] theorem written?_move_r {n : Nat} :
    (instr (.move src (.r n))).written? = some (.general n) := rfl

@[simp] theorem written?_guard (g : Guard) (numbers : List Nat) :
    (g.call numbers).written? = some .discard := rfl

end Line

namespace Guard

@[simp] theorem reads_nullRef (n : Nat) : (nullRef.call [n]).reads = [.general n] := rfl

@[simp] theorem reads_arrayAccess (array index : Nat) :
    (arrayAccess.call [array, index]).reads = [.general array, .general index] := rfl

@[simp] theorem reads_zero (n : Nat) : (zero.call [n]).reads = [.general n] := rfl

end Guard

namespace Code

def written (code : Code) : List Register := code.filterMap Line.written?

/-- Behind the lines `before`, the code reads the register. -/
def Reads (code before : Code) (x : Register) : Prop :=
  ∃ line rest, code = before ++ line :: rest ∧ x ∈ line.reads

/-- Every register that is read is written by an earlier line. -/
def WrittenBeforeRead (code : Code) : Prop :=
  ∀ before x, code.Reads before x → x ∈ before.written

section

variable {a b code before : Code} {line : Line} {x : Register}

@[simp] theorem written_nil : written [] = [] := rfl

@[simp] theorem written_append : written (a ++ b) = a.written ++ b.written :=
  List.filterMap_append

theorem mem_written : x ∈ code.written ↔ ∃ line ∈ code, line.written? = some x :=
  List.mem_filterMap

@[simp] theorem mem_written_cons :
    x ∈ written (line :: code) ↔ line.written? = some x ∨ x ∈ code.written := by
  simp [mem_written]

theorem not_mem_written {allowed : Nat → Prop} (h : code.UsesOnly allowed) {n : Nat}
    (hn : ¬ allowed n) : .general n ∉ code.written := by
  intro hmem
  obtain ⟨line, hline, hwritten⟩ := mem_written.mp hmem
  exact hn ((h.line hline).written hwritten)

theorem reads_singleton (h : Reads [line] before x) : before = [] ∧ x ∈ line.reads := by
  obtain ⟨line', rest, heq, hx⟩ := h
  cases before with
  | nil =>
    obtain ⟨rfl, _⟩ := List.cons.inj heq
    exact ⟨rfl, hx⟩
  | cons first before => simp at heq

theorem Reads.append (h : Reads a before x) (b : Code) : Reads (a ++ b) before x := by
  obtain ⟨line, rest, rfl, hx⟩ := h
  exact ⟨line, rest ++ b, by simp, hx⟩

theorem Reads.after (h : Reads b before x) (a : Code) : Reads (a ++ b) (a ++ before) x := by
  obtain ⟨line, rest, rfl, hx⟩ := h
  exact ⟨line, rest, by simp, hx⟩

theorem Reads.cases (h : Reads (a ++ b) before x) :
    Reads a before x ∨ ∃ before', before = a ++ before' ∧ Reads b before' x := by
  obtain ⟨line, rest, heq, hx⟩ := h
  rcases List.append_eq_append_iff.mp heq with ⟨before', rfl, hb⟩ | ⟨after, rfl, hrest⟩
  · exact .inr ⟨before', rfl, line, rest, hb, hx⟩
  · cases after with
    | nil =>
      refine .inr ⟨[], by simp, line, rest, ?_, hx⟩
      simpa using hrest.symm
    | cons first after =>
      obtain ⟨rfl, _⟩ := List.cons.inj hrest
      exact .inl ⟨line, after, rfl, hx⟩

end

end Code

/-! ## Calls without a value -/

namespace LowerEnv

/-- A call of a static method or a library routine that passes no arguments and gives no
    value. -/
def Bare (env : LowerEnv) (e : Expr) : Prop :=
  ∃ callee, env.Calls e callee ∧ callee.kind.isStatic = true ∧ e.args = [] ∧
    callee.returnsValue = false

/-- The code has made a call whose result nobody gets, and has not written the register since. -/
def Awaits (env : LowerEnv) (call : Expr) (x : Register) (code : Code) : Prop :=
  ∃ a line b, code = a ++ line :: b ∧ env.Makes call line ∧ line.written? = some .discard ∧
    x ∉ Code.written b

variable {env : LowerEnv} {call : Expr} {x : Register} {a b : Code} {line : Line}

theorem Awaits.append (h : env.Awaits call x a) (hx : x ∉ Code.written b) :
    env.Awaits call x (a ++ b) := by
  obtain ⟨u, line, v, rfl, hmakes, hdiscard, hv⟩ := h
  refine ⟨u, line, v ++ b, by simp, hmakes, hdiscard, ?_⟩
  rw [Code.written_append, List.mem_append]
  exact not_or.mpr ⟨hv, hx⟩

theorem Awaits.after (h : env.Awaits call x b) (a : Code) : env.Awaits call x (a ++ b) := by
  obtain ⟨u, line, v, rfl, hrest⟩ := h
  exact ⟨a ++ u, line, v, by simp, hrest⟩

end LowerEnv

/-! ## Calls whose value is used -/

/-- The calls in the arguments of a call and in its receiver. -/
def Expr.operandCalls : Expr → List Expr
  | .staticCall _ _ _ args | .ownCall _ _ args => callsOfList args
  | .methodCall _ receiver _ args => receiver.calls ++ callsOfList args
  | e => e.calls

/-- A call is made after those in its operands. -/
theorem LowerEnv.Makes.calls_eq {env : LowerEnv} {e : Expr} {line : Line}
    (h : env.Makes e line) : e.calls = e.operandCalls ++ [e] := by
  cases h <;> rfl

namespace Stmt

mutual

/-- The calls in a statement whose value something is done with: all but the one that a
    statement consists of. -/
def usedCalls : Stmt → List Expr
  | .call _ e => e.operandCalls
  | .ifThen _ condition body => condition.calls ++ usedCalls body
  | .ifElse _ condition thenBranch elseBranch =>
    condition.calls ++ usedCalls thenBranch ++ usedCalls elseBranch
  | .loop _ condition body => condition.calls ++ usedCalls body
  | .block _ stmts => usedCallsOfList stmts
  | .assign _ target value => value.calls ++ target.calls
  | .ret _ (some value) | .declare _ _ _ (some value) => value.calls
  | .ret _ none | .declare _ _ _ none | .breakLoop _ | .continueLoop _ => []

def usedCallsOfList : List Stmt → List Expr
  | [] => []
  | stmt :: stmts => usedCalls stmt ++ usedCallsOfList stmts

end

end Stmt

/-! ## Ready code -/

namespace Lowering

open Code

/-- The register is written in the code, or one of the calls is bare and the register is in the
    place of its result. -/
def Available (env : LowerEnv) (calls : List Expr) (code : Code) (x : Register) : Prop :=
  x ∈ code.written ∨ ∃ call ∈ calls, env.Bare call ∧ env.Awaits call x code

/-- The code reads a register in the place of the result of the call. -/
def ReadsResult (env : LowerEnv) (call : Expr) (code : Code) : Prop :=
  ∃ before x, code.Reads before x ∧ env.Awaits call x before

/-- The code makes the given calls and brings values to the given registers. -/
structure Ready (env : LowerEnv) (calls : List Expr) (regs : List Register) (code : Code) :
    Prop where
  reads : ∀ before x, code.Reads before x → Available env calls before x
  available : ∀ x ∈ regs, Available env calls code x
  settled : ∀ call ∈ calls, env.Bare call →
    ReadsResult env call code ∨ ∃ x ∈ regs, env.Awaits call x code

variable {env : LowerEnv} {calls calls' : List Expr} {regs regs' : List Register} {a b : Code}
  {line : Line} {x : Register} {call : Expr}

namespace Available

theorem mono (h : Available env calls a x) (hcalls : calls ⊆ calls') :
    Available env calls' a x := by
  refine h.imp_right fun hcall => ?_
  obtain ⟨call, hmem, hrest⟩ := hcall
  exact ⟨call, hcalls hmem, hrest⟩

theorem append (h : Available env calls a x) (b : Code) : Available env calls (a ++ b) x := by
  unfold Available
  rw [written_append, List.mem_append]
  by_cases hb : x ∈ b.written
  · exact .inl (.inr hb)
  rcases h with hx | ⟨call, hmem, hbare, hawaits⟩
  · exact .inl (.inl hx)
  · exact .inr ⟨call, hmem, hbare, hawaits.append hb⟩

theorem after (h : Available env calls b x) (a : Code) : Available env calls (a ++ b) x := by
  unfold Available
  rw [written_append, List.mem_append]
  rcases h with hx | ⟨call, hmem, hbare, hawaits⟩
  · exact .inl (.inr hx)
  · exact .inr ⟨call, hmem, hbare, hawaits.after a⟩

end Available

theorem ReadsResult.append (h : ReadsResult env call a) (b : Code) :
    ReadsResult env call (a ++ b) := by
  obtain ⟨before, x, hreads, hawaits⟩ := h
  exact ⟨before, x, hreads.append b, hawaits⟩

theorem ReadsResult.after (h : ReadsResult env call b) (a : Code) :
    ReadsResult env call (a ++ b) := by
  obtain ⟨before, x, hreads, hawaits⟩ := h
  exact ⟨a ++ before, x, hreads.after a, hawaits.after a⟩

namespace Ready

/-- Code that reads no registers. -/
theorem of_plain (h : ∀ line ∈ a, line.reads = []) (hregs : regs ⊆ a.written) :
    Ready env [] regs a where
  reads before x hx := by
    obtain ⟨line, rest, rfl, hx⟩ := hx
    rw [h line (by simp)] at hx
    exact absurd hx List.not_mem_nil
  available x hx := .inl (hregs hx)
  settled call hcall := absurd hcall List.not_mem_nil

theorem nil : Ready env [] [] [] := .of_plain (by simp) (by simp)

theorem congr (h : Ready env calls regs a) (hregs : ∀ x, x ∈ regs ↔ x ∈ regs') :
    Ready env calls regs' a where
  reads := h.reads
  available x hx := h.available x ((hregs x).mpr hx)
  settled call hcall hbare := by
    refine (h.settled call hcall hbare).imp_right fun hawaits => ?_
    obtain ⟨x, hx, hawaits⟩ := hawaits
    exact ⟨x, (hregs x).mp hx, hawaits⟩

/-- The second part leaves the registers of the first part alone. -/
theorem append (ha : Ready env calls regs a) (hb : Ready env calls' regs' b)
    (hkeep : ∀ x ∈ regs, x ∉ b.written) :
    Ready env (calls ++ calls') (regs ++ regs') (a ++ b) where
  reads before x hx := by
    rcases hx.cases with hfirst | ⟨before', rfl, hsecond⟩
    · exact (ha.reads before x hfirst).mono (by simp)
    · exact ((hb.reads before' x hsecond).after a).mono (by simp)
  available x hx := by
    rcases List.mem_append.mp hx with hx | hx
    · exact ((ha.available x hx).append b).mono (by simp)
    · exact ((hb.available x hx).after a).mono (by simp)
  settled call hcall hbare := by
    rcases List.mem_append.mp hcall with hcall | hcall
    · rcases ha.settled call hcall hbare with hread | ⟨x, hx, hawaits⟩
      · exact .inl (hread.append b)
      · exact .inr ⟨x, List.mem_append_left _ hx, hawaits.append (hkeep x hx)⟩
    · rcases hb.settled call hcall hbare with hread | ⟨x, hx, hawaits⟩
      · exact .inl (hread.after a)
      · exact .inr ⟨x, List.mem_append_right _ hx, hawaits.after a⟩

/-- A line that reads registers which are ready. A register that is given up must be among
    those. -/
theorem concat (h : Ready env calls regs a) (hreads : line.reads ⊆ regs)
    (hkept : ∀ x ∈ regs, x ∈ line.reads ∨ x ∈ regs' ∧ line.written? ≠ some x)
    (hregs : ∀ x ∈ regs', x ∈ regs ∨ line.written? = some x) :
    Ready env calls regs' (a ++ [line]) where
  reads before x hx := by
    rcases hx.cases with hfirst | ⟨before', rfl, hlast⟩
    · exact h.reads before x hfirst
    · obtain ⟨rfl, hread⟩ := reads_singleton hlast
      rw [List.append_nil]
      exact h.available x (hreads hread)
  available x hx := by
    rcases hregs x hx with hx | hx
    · exact (h.available x hx).append [line]
    · refine .inl ?_
      rw [written_append]
      exact List.mem_append_right _ (by simpa using hx)
  settled call hcall hbare := by
    rcases h.settled call hcall hbare with hread | ⟨x, hx, hawaits⟩
    · exact .inl (hread.append [line])
    rcases hkept x hx with hread | ⟨hx', hwritten⟩
    · exact .inl ⟨a, x, ⟨line, [], rfl, hread⟩, hawaits⟩
    · exact .inr ⟨x, hx', hawaits.append (by simpa using hwritten)⟩

/-- A line that reads all that is ready. -/
theorem use (h : Ready env calls regs a) (hreads : ∀ x, x ∈ line.reads ↔ x ∈ regs)
    (hregs : ∀ x ∈ regs', x ∈ regs ∨ line.written? = some x) :
    Ready env calls regs' (a ++ [line]) :=
  h.concat (fun x hx => (hreads x).mp hx) (fun x hx => .inl ((hreads x).mpr hx)) hregs

/-- What is read stays ready. -/
theorem keep (h : Ready env calls regs a) (hreads : line.reads = regs) :
    Ready env calls regs (a ++ [line]) := h.use (by simp [hreads]) fun _ => .inl

/-- What is read is not used again. -/
theorem spend (h : Ready env calls regs a) (hreads : line.reads = regs) :
    Ready env calls [] (a ++ [line]) := h.use (by simp [hreads]) (by simp)

/-- More code where nothing is left to be read. -/
theorem andThen (ha : Ready env calls [] a) (hb : Ready env calls' regs b) :
    Ready env (calls ++ calls') regs (a ++ b) := ha.append hb (by simp)

theorem append_plain (h : Ready env calls [] a) (hb : ∀ line ∈ b, line.reads = [])
    (hregs : regs ⊆ b.written) : Ready env calls regs (a ++ b) := by
  have happend := h.andThen (.of_plain hb hregs)
  rwa [List.append_nil] at happend

/-- Lines that read no registers. -/
theorem quiet (h : Ready env calls [] a) (hb : ∀ line ∈ b, line.reads = []) :
    Ready env calls [] (a ++ b) := h.append_plain hb (by simp)

theorem load {o : Operand} (h : Ready env calls o.registers a) (n : Nat) :
    Ready env calls [.general n] (a ++ Code.load o n) := by
  unfold Code.load
  split
  · next hthere =>
    rw [show o = .r n from of_decide_eq_true hthere] at h
    rw [List.append_nil]
    exact h
  · refine h.use (fun x => ?_) (fun x hx => .inr ?_)
    · simp
    · rw [List.mem_singleton.mp hx]
      rfl

/-- A reference in register `n` is checked. -/
theorem checked {o : Operand} (h : Ready env calls o.registers a) (n : Nat) :
    Ready env calls [.general n] (a ++ Code.load o n ++ [Guard.nullRef.call [n]]) :=
  (h.load n).keep rfl

end Ready

/-! ## The code of operations -/

section

variable {d : Nat} {l r : Code × Operand}

/-- The operands of an operation are ready for use. -/
def Operands.Ready (env : LowerEnv) (calls : List Expr) (os : Operands) : Prop :=
  Lowering.Ready env calls (os.right.registers ++ [.general os.left]) os.code

theorem ready_rightOperand (h : Ready env calls r.2.registers r.1) (strategy : Strategy)
    (keep : Bool) (n : Nat) :
    Ready env calls (rightOperand strategy keep r.2 n).2.registers
      (r.1 ++ (rightOperand strategy keep r.2 n).1) := by
  unfold rightOperand
  split
  · rw [List.append_nil]
    exact h
  · exact h.load n

/-- An operand that is kept is in no register. -/
theorem registers_rightOperand (strategy : Strategy) (keep : Bool) (o : Operand) (n : Nat) :
    (rightOperand strategy keep o n).2.registers ⊆ [.general n] := by
  unfold rightOperand
  split
  · next hkeep =>
    rw [Bool.and_eq_true] at hkeep
    simp [Operand.registers_of_isHeld hkeep.2]
  · simp

theorem ready_operands {left right : Expr} {s s' : Supply} {rightFirst : Bool}
    (h : LoweredPair env left right d s rightFirst l r s')
    (hl : Ready env left.calls l.2.registers l.1) (hr : Ready env right.calls r.2.registers r.1)
    (strategy : Strategy) (keep : Bool) :
    (operands strategy rightFirst keep d l r).Ready env (left.calls ++ right.calls) := by
  unfold Operands.Ready
  cases h with
  | leftFirst _ _ hright =>
    have huses := usesOnly_append.mp hright.staysFrom.load
    have hcode := usesOnly_append.mpr
      ⟨huses.1, (usesOnly_rightOperand huses.2 (Nat.le_refl (d + 1)) strategy keep).1⟩
    have happend := (hl.load d).append (ready_rightOperand hr strategy keep (d + 1))
      (by simpa using not_mem_written hcode (Nat.not_succ_le_self d))
    simp only [operands, Bool.false_eq_true, if_false]
    rw [List.append_assoc _ r.1]
    exact happend.congr (by simp [or_comm])
  | rightFirst horder _ hleft =>
    -- neither operand has a call in it
    obtain ⟨hlnil, hrnil⟩ := Expr.calls_eq_nil_of_rightFirst horder
    have happend := (ready_rightOperand hr strategy keep d).append (hl.load (d + 1))
      (fun x hx => ?_)
    · simp only [operands, if_true]
      rw [hlnil, hrnil] at happend ⊢
      rw [List.append_assoc _ l.1]
      exact happend
    · rw [List.mem_singleton.mp (registers_rightOperand strategy keep r.2 d hx)]
      exact not_mem_written hleft.staysFrom.load (Nat.not_succ_le_self d)

theorem ready_indexCode {array i : Expr} {s s' : Supply} {rightFirst : Bool}
    (h : LoweredPair env array i d s rightFirst l r s')
    (hl : Ready env array.calls l.2.registers l.1) (hr : Ready env i.calls r.2.registers r.1) :
    Ready env (array.calls ++ i.calls) (indexCode rightFirst l r d).2.registers
      (indexCode rightFirst l r d).1 := by
  cases h with
  | leftFirst _ _ hindex =>
    have happend := (hl.checked d).append (hr.load (d + 1))
      (by simpa using not_mem_written hindex.staysFrom.load (Nat.not_succ_le_self d))
    simp only [indexCode, Bool.false_eq_true, if_false]
    rw [List.append_assoc _ r.1]
    exact happend.keep rfl
  | rightFirst horder _ harray =>
    obtain ⟨hlnil, hrnil⟩ := Expr.calls_eq_nil_of_rightFirst horder
    have happend := (hr.load d).append (hl.load (d + 1))
      (by simpa using not_mem_written harray.staysFrom.load (Nat.not_succ_le_self d))
    -- the array is checked alone, and the index stays where it is
    have hchecked : Ready env (i.calls ++ array.calls) [.general d, .general (d + 1)]
        (r.1 ++ load r.2 d ++ (l.1 ++ load l.2 (d + 1)) ++ [Guard.nullRef.call [d + 1]]) :=
      happend.concat (by simp) (by simp) (fun _ => .inl)
    have hused : Ready env (i.calls ++ array.calls) [.general (d + 1), .general d]
        (r.1 ++ load r.2 d ++ (l.1 ++ load l.2 (d + 1)) ++ [Guard.nullRef.call [d + 1]] ++
          [Guard.arrayAccess.call [d + 1, d]]) := by
      refine hchecked.use (fun x => ?_) (fun x hx => .inl ?_)
      · simp [or_comm]
      · simpa [or_comm] using hx
    rw [hlnil, hrnil] at hused ⊢
    simpa [indexCode] using hused

section

variable {os : Operands}

theorem ready_compareCode (h : os.Ready env calls) (op : CompareOp) (labels : LabelSet) :
    Ready env calls [.general d] (compareCode op labels os d) := by
  have hused : Ready env calls []
      (os.code ++ [.instr (.compare os.right (.general os.left))]) :=
    h.spend rfl
  unfold compareCode
  rw [List.append_cons]
  exact hused.append_plain
    (by simp) (by simp)

theorem ready_concatCode (h : os.Ready env calls) :
    Ready env calls [.general d] (concatCode os d) := by
  refine Ready.use h (fun x => ?_) (fun x hx => .inr ?_)
  · simp [libraryCall, or_comm]
  · rw [List.mem_singleton.mp hx]
    rfl

/-- The guard of a divisor reads its register as well. -/
theorem ready_arithCode {op : ArithOp} (h : os.Ready env calls) :
    Ready env calls [.general d] (arithCode op os d) := by
  have hguarded : Ready env calls (os.right.registers ++ [.general os.left])
      (os.code ++ divisorGuard op os.right) := by
    rcases divisorGuard_cases op os.right with hnil | ⟨n, hn, hcall⟩
    · rw [hnil, List.append_nil]
      exact h
    · rw [hcall]
      refine Ready.concat h ?_ (fun x hx => .inr ⟨hx, ?_⟩) (fun _ => .inl)
      · simp [hn]
      · rw [hn] at hx
        rintro hwritten
        obtain rfl := Option.some.inj hwritten
        simp at hx
  have hdone : Ready env calls (Operand.r os.left).registers
      (os.code ++ divisorGuard op os.right ++ [.instr (.arith op os.right (.general os.left))]) :=
    hguarded.use (fun _ => Iff.rfl) (fun x hx => .inl (List.mem_append_right _ hx))
  exact hdone.load d

theorem ready_operationCode {op : ArithOp} (h : os.Ready env calls) (isConcat : Bool) :
    Ready env calls [.general d] (operationCode isConcat op os d) := by
  unfold operationCode
  split
  · exact ready_concatCode h
  · exact ready_arithCode h

end

/-- The value in register `d` is tested. -/
theorem Ready.test (h : Ready env calls [.general d] a) (op : LogicOp) (exit : String) :
    Ready env calls [] (a ++ logicTest op d exit) := by
  have hused : Ready env calls [] (a ++ [.instr (.compare (.int 0) (.general d))]) :=
    h.spend rfl
  unfold logicTest
  rw [List.append_cons]
  exact hused.quiet (by simp)

theorem ready_logicCode (hl : Ready env calls l.2.registers l.1)
    (hr : Ready env calls' r.2.registers r.1) (op : LogicOp) (labels : LabelSet) :
    Ready env (calls ++ calls') [.general d] (logicCode op labels l r d) := by
  have hboth : ∀ exit, Ready env (calls ++ calls') []
      (l.1 ++ load l.2 d ++ logicTest op d exit ++ (r.1 ++ load r.2 d) ++ logicTest op d exit) :=
    fun exit => (((hl.load d).test op exit).andThen (hr.load d)).test op exit
  cases op <;>
  · unfold logicCode
    simp only [← List.append_assoc] at hboth
    exact (hboth _).append_plain (by simp) (by simp)

end

/-! ## Calls -/

/-- The registers of `n` arguments from `d` on. -/
def argRegisters (d n : Nat) : List Register := (List.range n).map fun i => .general (d + i)

theorem argRegisters_succ (d n : Nat) :
    argRegisters d (n + 1) = .general d :: argRegisters (d + 1) n := by
  simp [argRegisters, List.range_succ_eq_map, Nat.add_right_comm, Nat.add_assoc]

theorem mem_argRegisters_succ (d n : Nat) : .general d ∈ argRegisters d (n + 1) := by
  rw [argRegisters_succ]
  exact List.mem_cons_self

section

variable {callee : Callee} {d : Nat} {s s' : Supply}

theorem map_snd_bindings {m : MethodDecl} {base : Nat} {bindings : List (String × Register)}
    (h : env.bindings m base s = .ok bindings s') :
    bindings.map Prod.snd = argRegisters base m.params.length := by
  obtain ⟨scope, _, rfl⟩ := eq_bindings h
  calc
    _ = (m.params.zipIdx.map Prod.snd).map fun i => Register.general (base + i) := by
      simp only [List.map_map]
      rfl
    _ = _ := by rw [List.zipIdx_map_snd, argRegisters, List.range_eq_range']

theorem reads_staticCallLine {name : String}
    (h : env.staticCallLine callee name d s = .ok line s') :
    line.reads = argRegisters d callee.method.params.length := by
  rcases eq_staticCallLine h with ⟨_, rfl⟩ | ⟨_, bindings, _, hbindings, rfl⟩
  · rw [Line.reads_library, List.flatMap_map, argRegisters, List.map_eq_flatMap]
    rfl
  · exact map_snd_bindings hbindings

theorem reads_virtualCallLine (h : env.virtualCallLine callee d s = .ok line s') :
    line.reads = argRegisters d (callee.method.params.length + 1) := by
  obtain ⟨slot, bindings, _, _, hbindings, rfl⟩ := eq_virtualCallLine h
  rw [argRegisters_succ, ← map_snd_bindings hbindings]
  rfl

theorem written?_staticCallLine {name : String}
    (h : env.staticCallLine callee name d s = .ok line s') :
    line.written? = some (callee.result d) := by
  rcases eq_staticCallLine h with ⟨_, rfl⟩ | ⟨_, _, _, _, rfl⟩ <;> rfl

theorem written?_virtualCallLine (h : env.virtualCallLine callee d s = .ok line s') :
    line.written? = some (callee.result d) := by
  obtain ⟨_, _, _, _, _, rfl⟩ := eq_virtualCallLine h
  rfl

end

/-- The code of an expression: its value is ready. Behind the code of a call nothing else is left
    to be read. -/
structure ReadyExpr (env : LowerEnv) (e : Expr) (r : Code × Operand) : Prop where
  value : Ready env e.calls r.2.registers r.1
  alone : e.isCall = true → Ready env e.operandCalls [] r.1

theorem Ready.readyExpr {e : Expr} {r : Code × Operand}
    (h : Ready env e.calls r.2.registers r.1) (he : e.isCall = false) : ReadyExpr env e r :=
  ⟨h, fun hcall => by simp [he] at hcall⟩

section

variable {e : Expr} {callee : Callee} {d : Nat} {s s' : Supply}

/-- If a call gives no value, its register has been written for an argument or the receiver, or
    the call is bare. -/
theorem Ready.readyExpr_call (h : Ready env e.operandCalls regs a) (hcallee : env.Calls e callee)
    (hmakes : env.Makes e line) (hreads : line.reads = regs)
    (hwritten : line.written? = some (callee.result d))
    (hgiven : callee.returnsValue = false → .general d ∈ regs ∨ env.Bare e) :
    ReadyExpr env e (a ++ [line], .r d) := by
  subst hreads
  have hawaits : callee.returnsValue = false → env.Awaits e (.general d) (a ++ [line]) := by
    intro hvalue
    rw [Callee.result, hvalue] at hwritten
    exact ⟨a, line, [], rfl, hmakes, hwritten, List.not_mem_nil⟩
  have hused : Ready env e.operandCalls [] (a ++ [line]) := h.spend rfl
  refine ⟨?_, fun _ => hused⟩
  rw [hmakes.calls_eq]
  refine ⟨fun before x hx => (hused.reads before x hx).mono (by simp), ?_, ?_⟩
  · intro x hx
    rw [List.mem_singleton.mp hx]
    cases hvalue : callee.returnsValue with
    | true =>
      rw [Callee.result, hvalue] at hwritten
      exact .inl (by simp [hwritten])
    | false =>
      rcases hgiven hvalue with hd | hbare
      · exact ((h.available _ hd).append [line]).mono (by simp)
      · exact .inr ⟨e, by simp, hbare, hawaits hvalue⟩
  · intro call hcall hbare
    rcases List.mem_append.mp hcall with hcall | hcall
    · exact (hused.settled call hcall hbare).imp_right fun hnone => by simp at hnone
    · obtain rfl := List.mem_singleton.mp hcall
      obtain ⟨callee', hcallee', _, _, hvalue⟩ := hbare
      obtain rfl := hcallee.unique hcallee'
      exact .inr ⟨_, List.mem_singleton_self _, hawaits hvalue⟩

theorem readyExpr_static {name : String} (hfits : CallFits e callee) (hcallee : env.Calls e callee)
    (hkind : callee.kind.isStatic = true) (hmakes : env.Makes e line)
    (hline : env.staticCallLine callee name d s = .ok line s')
    (h : Ready env e.operandCalls (argRegisters d e.args.length) a) :
    ReadyExpr env e (a ++ [line], .r d) := by
  have hreads := reads_staticCallLine hline
  rw [hfits.length_eq] at hreads
  refine h.readyExpr_call hcallee hmakes hreads (written?_staticCallLine hline) fun hvalue => ?_
  cases hargs : e.args with
  | nil => exact .inr ⟨callee, hcallee, hkind, hargs, hvalue⟩
  | cons arg args => exact .inl (mem_argRegisters_succ d args.length)

theorem readyExpr_virtual (hfits : CallFits e callee) (hcallee : env.Calls e callee)
    (hmakes : env.Makes e line) (hline : env.virtualCallLine callee d s = .ok line s')
    (h : Ready env e.operandCalls (argRegisters d (e.args.length + 1)) a) :
    ReadyExpr env e (a ++ [line], .r d) := by
  have hreads := reads_virtualCallLine hline
  rw [hfits.length_eq] at hreads
  exact h.readyExpr_call hcallee hmakes hreads (written?_virtualCallLine hline)
    fun _ => .inl (mem_argRegisters_succ d e.args.length)

end

/-! ## Expressions -/

theorem reads_unaryCode (op : UnaryOp) (d : Nat) :
    (Line.instr (unaryCode op d)).reads = [.general d] := by
  cases op <;> rfl

theorem ready_receiverLine {d : Nat} :
    Ready env [] [.general d] [.instr (.move .receiver (.r d))] :=
  .of_plain (by simp) (by simp)

theorem ready_objectLines (d : Nat) (size : Int) (name : String) : Ready env [] [.general d]
    [libraryCall "__allocateObject" [.int size] d, .instr (.move (.label name) (.field d 0))] := by
  have hobject : Ready env [] [.general d] [libraryCall "__allocateObject" [.int size] d] :=
    .of_plain (by simp [libraryCall]) (by simp [libraryCall, Line.written?, Instr.written?])
  exact hobject.keep rfl

/-- The arguments after a value in register `d` leave it alone. -/
theorem Ready.append_args {args : List Expr} {d : Nat} {s s' : Supply} {code : Code}
    (h : Ready env calls [.general d] a) (hargs : LoweredArgs env args (d + 1) s code s')
    (hready : Ready env calls' (argRegisters (d + 1) args.length) code) :
    Ready env (calls ++ calls') (argRegisters d (args.length + 1)) (a ++ code) := by
  rw [argRegisters_succ]
  exact h.append hready (by simpa using not_mem_written hargs.usesOnly (Nat.not_succ_le_self d))

mutual

theorem Lowered.readyExpr (hfits : Fits env e.nodes) (h : Lowered env e d s r s') :
    ReadyExpr env e r := by
  match h with
  | .literal hv =>
    refine Ready.readyExpr ?_ rfl
    rw [Operand.registers_of_isHeld (isHeld_literalOperand hv)]
    exact .nil
  | .var _ | .this => exact Ready.nil.readyExpr rfl
  | .ownField _ _ => exact ready_receiverLine.readyExpr rfl
  | .field hobject _ _ =>
    have hobject := hobject.readyExpr (hfits.mono fun x hx => by simp [Expr.nodes, hx])
    exact (hobject.value.checked d).readyExpr rfl
  | .index hpair =>
    obtain ⟨hl, hr⟩ := hpair.ready (hfits.mono fun x hx => by simp [Expr.nodes, hx])
      (hfits.mono fun x hx => by simp [Expr.nodes, hx])
    exact (ready_indexCode hpair hl hr).readyExpr rfl
  | .staticCall hc hcallee hargs hline =>
    have hcall := hfits _ List.mem_cons_self _ (.staticCall hc hcallee)
    exact readyExpr_static hcall (.staticCall hc hcallee) (hcall.isStatic rfl)
      (.staticCall hc hcallee hline) hline (hargs.ready hfits.args)
  | .ownStatic hcallee hkind hargs hline =>
    have hcall := hfits _ List.mem_cons_self _ (.ownCall hcallee)
    exact readyExpr_static hcall (.ownCall hcallee) hkind (.ownStatic hcallee hkind hline) hline
      (hargs.ready hfits.args)
  | .ownVirtual hcallee hkind hargs hline =>
    have hcall := hfits _ List.mem_cons_self _ (.ownCall hcallee)
    have hready := ready_receiverLine.append_args hargs (hargs.ready hfits.args)
    exact readyExpr_virtual hcall (.ownCall hcallee) (.ownVirtual hcallee hkind hline) hline hready
  | .methodCall htype hcallee hobject hargs hline =>
    have hcall := hfits _ List.mem_cons_self _ (.methodCall htype hcallee)
    have hobject := hobject.readyExpr (hfits.mono fun x hx => by simp [Expr.nodes, hx])
    have hready := (hobject.value.checked d).append_args hargs (hargs.ready hfits.args)
    exact readyExpr_virtual hcall (.methodCall htype hcallee) (.methodCall htype hcallee hline)
      hline hready
  | .newObject _ _ => exact (ready_objectLines d _ _).readyExpr rfl
  | .newArray hsize =>
    have hsize := hsize.readyExpr (hfits.mono fun x hx => by simp [Expr.nodes, hx])
    rw [List.append_cons, List.append_cons _ _ [libraryCall _ _ _]]
    exact ((((hsize.value.load d).keep rfl).keep rfl).keep rfl).readyExpr rfl
  | .length harray =>
    have harray := harray.readyExpr (hfits.mono fun x hx => by simp [Expr.nodes, hx])
    rw [List.append_cons]
    exact ((harray.value.checked d).keep rfl).readyExpr rfl
  | .logic hl hr =>
    have hl := hl.readyExpr (hfits.mono fun x hx => by simp [Expr.nodes, hx])
    have hr := hr.readyExpr (hfits.mono fun x hx => by simp [Expr.nodes, hx])
    exact (ready_logicCode hl.value hr.value _ _).readyExpr rfl
  | .compare hpair =>
    obtain ⟨hl, hr⟩ := hpair.ready (hfits.mono fun x hx => by simp [Expr.nodes, hx])
      (hfits.mono fun x hx => by simp [Expr.nodes, hx])
    exact (ready_compareCode (ready_operands hpair hl hr _ _) _ _).readyExpr rfl
  | .arith _ hpair =>
    obtain ⟨hl, hr⟩ := hpair.ready (hfits.mono fun x hx => by simp [Expr.nodes, hx])
      (hfits.mono fun x hx => by simp [Expr.nodes, hx])
    exact (ready_operationCode (ready_operands hpair hl hr _ _) _).readyExpr rfl
  | .unary hoperand =>
    have hoperand := hoperand.readyExpr (hfits.mono fun x hx => by simp [Expr.nodes, hx])
    exact ((hoperand.value.load d).keep (reads_unaryCode _ d)).readyExpr rfl
  | .paren hinner =>
    have hinner := hinner.readyExpr (hfits.mono fun x hx => by simp [Expr.nodes, hx])
    exact Ready.readyExpr hinner.value rfl

theorem LoweredPair.ready (hleft : Fits env left.nodes) (hright : Fits env right.nodes)
    (h : LoweredPair env left right d s rightFirst l r s') :
    Ready env left.calls l.2.registers l.1 ∧ Ready env right.calls r.2.registers r.1 := by
  match h with
  | .leftFirst _ hl hr | .rightFirst _ hr hl =>
    exact ⟨(hl.readyExpr hleft).value, (hr.readyExpr hright).value⟩

theorem LoweredArgs.ready (hfits : Fits env (Expr.nodesOfList es))
    (h : LoweredArgs env es d s code s') :
    Ready env (Expr.callsOfList es) (argRegisters d es.length) code := by
  match h with
  | .nil => exact .nil
  | .cons he hes =>
    have he := he.readyExpr (hfits.mono fun x hx => by simp [Expr.nodesOfList, hx])
    exact (he.value.load d).append_args hes
      (hes.ready (hfits.mono fun x hx => by simp [Expr.nodesOfList, hx]))

end

/-! ## Statements -/

section

variable {r : Code × Operand}

theorem ready_storeSource (h : Ready env calls r.2.registers r.1) (strategy : Strategy) :
    Ready env calls (storeSource strategy r.2).2.registers
      (r.1 ++ (storeSource strategy r.2).1) := by
  unfold storeSource
  split
  · rw [List.append_nil]
    exact h
  · exact h.load 0

theorem registers_storeSource (strategy : Strategy) (o : Operand) :
    (storeSource strategy o).2.registers ⊆ [.general 0] := by
  unfold storeSource
  split
  · next hkeep =>
    rw [Bool.and_eq_true] at hkeep
    simp [Operand.registers_of_isHeld (show o.isHeld = true by simp [Operand.isHeld, hkeep.2])]
  · simp

theorem ready_conditionCode (h : Ready env calls r.2.registers r.1) :
    Ready env calls [] (conditionCode r) :=
  (h.load 0).spend rfl

theorem ready_returnCode (h : Ready env calls r.2.registers r.1) :
    Ready env calls [] (returnCode r) := by
  unfold returnCode
  split
  · exact (h.load 0).spend rfl
  · exact h.spend rfl

end

mutual

theorem LoweredStmt.ready (hfits : Fits env stmt.exprs)
    (hformed : ∀ x ∈ stmt.nodes, x.isFormed = true) (h : LoweredStmt env loops scope stmt s code s')
    :
    Ready env stmt.usedCalls [] code := by
  match h with
  | .assign hv ht =>
    have hvalue := hv.readyExpr (hfits.mono fun x hx => by simp [Stmt.exprs, hx])
    have htarget := ht.readyExpr (hfits.mono fun x hx => by simp [Stmt.exprs, hx])
    have hstorage := ht.isStorage (hformed _ List.mem_cons_self)
    have hboth := (ready_storeSource hvalue.value env.strategy).append htarget.value fun x hx => by
      rw [List.mem_singleton.mp (registers_storeSource _ _ hx)]
      exact not_mem_written ht.staysFrom.code (by simp)
    refine hboth.spend ?_
    rw [Line.reads_move, Operand.address_of_isStorage hstorage]
  | .call hr => exact (hr.readyExpr hfits).alone (hformed _ List.mem_cons_self)
  | .retNothing | .breakLoop _ | .continueLoop _ => exact .of_plain (by simp) (by simp)
  | .retValue hr => exact ready_returnCode (hr.readyExpr hfits).value
  | .ifThen hr _ hbody =>
    have hcondition := ready_conditionCode
      (hr.readyExpr (hfits.mono fun x hx => by simp [Stmt.exprs, hx])).value
    have hbody := hbody.ready (hfits.mono fun x hx => by simp [Stmt.exprs, hx])
      fun x hx => hformed x (by simp [Stmt.nodes, hx])
    exact ((hcondition.quiet (by simp)).andThen hbody).quiet (by simp)
  | .ifElse hr _ hthen _ helse =>
    have hcondition := ready_conditionCode
      (hr.readyExpr (hfits.mono fun x hx => by simp [Stmt.exprs, hx])).value
    have hthen := hthen.ready (hfits.mono fun x hx => by simp [Stmt.exprs, hx])
      fun x hx => hformed x (by simp [Stmt.nodes, hx])
    have helse := helse.ready (hfits.mono fun x hx => by simp [Stmt.exprs, hx])
      fun x hx => hformed x (by simp [Stmt.nodes, hx])
    exact ((((hcondition.quiet (by simp)).andThen hthen).quiet (by simp)).andThen helse).quiet
      (by simp)
  | .loop hr _ hbody =>
    have hcondition := ready_conditionCode
      (hr.readyExpr (hfits.mono fun x hx => by simp [Stmt.exprs, hx])).value
    have hbody := hbody.ready (hfits.mono fun x hx => by simp [Stmt.exprs, hx])
      fun x hx => hformed x (by simp [Stmt.nodes, hx])
    have hlabel : Ready env [] [] [.label s.labels.conditionLabel] := .of_plain (by simp) (by simp)
    exact (((hlabel.andThen hcondition).quiet (by simp)).andThen hbody).quiet (by simp)
  | .block _ hstmts =>
    exact hstmts.ready hfits fun x hx => hformed x (by simp [Stmt.nodes, hx])
  | .declare => exact .nil
  | .declareValue hr =>
    have hvalue := (hr.readyExpr hfits).value
    exact (ready_storeSource hvalue env.strategy).spend (by simp [LowerEnv.slot])

theorem LoweredStmts.ready (hfits : Fits env (Stmt.exprsOfList stmts))
    (hformed : ∀ x ∈ Stmt.nodesOfList stmts, x.isFormed = true)
    (h : LoweredStmts env loops scope stmts s code s') :
    Ready env (Stmt.usedCallsOfList stmts) [] code := by
  match h with
  | .nil => exact .nil
  | .cons hfirst hrest =>
    have hfirst := hfirst.ready (hfits.mono fun x hx => by simp [Stmt.exprsOfList, hx])
      fun x hx => hformed x (by simp [Stmt.nodesOfList, hx])
    have hrest := hrest.ready (hfits.mono fun x hx => by simp [Stmt.exprsOfList, hx])
      fun x hx => hformed x (by simp [Stmt.nodesOfList, hx])
    exact hfirst.andThen hrest

end

end Lowering

/-! ## Programs -/

section

variable {p : Program} {options : Options}

/-- The code of a method reads registers that are available, and all results that are used. -/
theorem Lowering.LoweredMethod.exists_ready (hp : p.DistinctNodes) {c : Context}
    (hc : analyzed options p = .ok c) {strategy : Strategy} {e : ClassDecl × MethodDecl}
    (he : e ∈ emitted p) {s s' : Supply} {r : Routine}
    (h : LoweredMethod c strategy e s r s') :
    ∃ type, c.types.class? e.1.name.name = some type ∧
      Ready ⟨c, strategy, type⟩ (Stmt.usedCallsOfList e.2.body) [] r.body := by
  obtain ⟨type, scope, code, htype, _, hcode, hbody⟩ := h.body
  obtain ⟨hk, hm, hkind⟩ := mem_emitted.mp he
  have hready := hcode.ready (fits_of_analyzed hp hc strategy hk hm hkind htype)
    fun _ => (accepts_of_analyzed hp hc).isFormed_of_mem_nodes he
  refine ⟨type, htype, ?_⟩
  rw [hbody]
  refine hready.quiet ?_
  split <;> simp

end

/-- What holds of the reads in the text of a method, given the calls that it uses the value of.
    Without bare calls among them, every read is behind a write. With them, a read that comes too
    early is in place of the result of one, and the result of each of them is read so. -/
structure ReadsInTurn (env : LowerEnv) (used : List Expr) (body : Code) : Prop where
  written : (∀ call ∈ used, ¬ env.Bare call) → body.WrittenBeforeRead
  early : ∀ before x, body.Reads before x → x ∉ before.written →
    ∃ call ∈ used, env.Bare call ∧ env.Awaits call x before
  result : ∀ call ∈ used, env.Bare call →
    ∃ before x, body.Reads before x ∧ env.Awaits call x before

theorem Lowering.Ready.readsInTurn {env : LowerEnv} {calls : List Expr} {code : Code}
    (h : Ready env calls [] code) : ReadsInTurn env calls code where
  written hnone before x hx := by
    refine (h.reads before x hx).resolve_right fun hcall => ?_
    obtain ⟨call, hmem, hbare, _⟩ := hcall
    exact hnone call hmem hbare
  early before x hx hnot := (h.reads before x hx).resolve_left hnot
  result call hcall hbare := (h.settled call hcall hbare).resolve_right (by simp)

/-- The registers that a method of an accepted program reads are written by earlier lines, but
    for those that are read in place of the result of a bare call. -/
theorem reads_follow_writes_but_for_bare_calls {p : Program} (hp : p.DistinctNodes)
    {options : Options} {r : Compilation} (h : compile options p = .ok r) :
    ∃ c a, analyzed options p = .ok c ∧ c.generate options.strategy p = .ok a ∧
      r.lir = a.render ∧
      List.Forall₂ (fun e routine => routine.label = routineLabel c e ∧
        ∃ type, c.types.class? e.1.name.name = some type ∧
          ReadsInTurn ⟨c, options.strategy, type⟩ (Stmt.usedCallsOfList e.2.body) routine.body)
        (arranged c p) a.routines := by
  obtain ⟨c, a, hc, ha, hlir⟩ := exists_generate_of_compile h
  refine ⟨c, a, hc, ha, hlir, ?_⟩
  have hroutines := ((accepts_of_analyzed hp hc).assembled hp ha).forall₂_routines
  have hemitted := (List.forall₂_and_left (p := (· ∈ emitted p)) _ _).mpr
    ⟨fun e => mem_emitted_of_mem_arranged, hroutines⟩
  refine hemitted.imp ?_
  rintro e routine ⟨he, s, s', hmethod⟩
  obtain ⟨type, htype, hready⟩ := hmethod.exists_ready hp hc he
  exact ⟨hmethod.label, type, htype, hready.readsInTurn⟩

namespace BareCall

open Shapes

/-- `static void f() { }` -/
def f : MethodDecl where
  id := 0
  kind := .static
  returnType := type .void
  name := name "f"
  params := []
  body := []

/-- `static int twice(int n) { return n + n; }` -/
def twice : MethodDecl where
  id := 1
  kind := .static
  returnType := type .int
  name := name "twice"
  params := [⟨type .int, name "n"⟩]
  body := [.ret (node 10) (some (.binary (node 20) (.arith .add) (.var (node 21) (name "n"))
    (.var (node 22) (name "n"))))]

def entry (body : List Stmt) : MethodDecl := mainOf 2 body

def program (body : List Stmt) : Program := ⟨[⟨name "Main", none, [], [f, twice, entry body]⟩]⟩

def call (n : Nat) : Expr := .staticCall (node n) (name "Main") (name "f") []

/-- `return Main.f();` -/
def returned : List Stmt := [.ret (node 11) (some (call 23))]

/-- `Main.f(); int x = Main.twice(Main.twice(2)); if (x < Main.twice(x)) { return; }` -/
def passed : List Stmt :=
  [.call (node 11) (call 23),
   .declare (node 12) (type .int) (name "x") (some (.staticCall (node 24) (name "Main")
    (name "twice") [.staticCall (node 25) (name "Main") (name "twice")
      [.literal (node 26) (.int 2)]])),
   .ifThen (node 13) (.binary (node 27) (.compare .lt) (.var (node 28) (name "x"))
    (.staticCall (node 29) (name "Main") (name "twice") [.var (node 30) (name "x")]))
    (.ret (node 14) none)]

theorem distinctNodes : (program passed).DistinctNodes := ⟨by decide, by decide, by decide⟩

end BareCall

/-- A bare call that stands alone does no harm, nor do calls that pass arguments. -/
theorem reads_follow_writes_but_for_bare_calls_passed :
    ∃ r c a, compile {} (BareCall.program BareCall.passed) = .ok r ∧
      analyzed {} (BareCall.program BareCall.passed) = .ok c ∧
      c.generate .baseline (BareCall.program BareCall.passed) = .ok a ∧
      (a.main.body.flatMap Line.reads).length = 7 ∧
      ∀ routine ∈ a.routines, routine.body.WrittenBeforeRead := by
  have hreads : (assembled? {} (BareCall.program BareCall.passed)).any (fun x =>
      decide ((x.2.main.body.flatMap Line.reads).length = 7)) = true := by
    decide +kernel
  obtain ⟨r, c, a, hr, hc, ha, _, hreads⟩ := exists_compile_of_any hreads
  obtain ⟨c', a', hc', ha', _, hall⟩ :=
    reads_follow_writes_but_for_bare_calls BareCall.distinctNodes hr
  obtain ⟨rfl, rfl⟩ := assembled_unique hc ha hc' ha'
  refine ⟨r, c, a, hr, hc, ha, of_decide_eq_true hreads, fun routine hroutine => ?_⟩
  have hargs : ∀ k ∈ (BareCall.program BareCall.passed).classes, ∀ m ∈ k.methods,
      ∀ call ∈ Stmt.usedCallsOfList m.body, call.args ≠ [] := by decide
  obtain ⟨e, he, _, _, _, hturn⟩ := exists_left_of_mem hall hroutine
  obtain ⟨hk, hm, _⟩ := mem_emitted.mp (mem_emitted_of_mem_arranged he)
  refine hturn.written fun call hcall hbare => ?_
  obtain ⟨_, _, _, hnil, _⟩ := hbare
  exact hargs e.1 hk e.2 hm call hcall hnil

/-- `return Main.f();` reads register 0, which no line has written. -/
theorem bare_call_is_read_before_written :
    ∃ r c a, compile {} (BareCall.program BareCall.returned) = .ok r ∧
      analyzed {} (BareCall.program BareCall.returned) = .ok c ∧
      c.generate .baseline (BareCall.program BareCall.returned) = .ok a ∧
      r.lir = a.render ∧
      a.main.body = [.instr (.staticCall "_Main_f" [] .discard), .instr (.ret (.r 0))] ∧
      ¬ a.main.body.WrittenBeforeRead := by
  have hbody : (assembled? {} (BareCall.program BareCall.returned)).any (fun x =>
      decide (x.2.main.body =
        [.instr (.staticCall "_Main_f" [] .discard), .instr (.ret (.r 0))])) = true := by
    decide +kernel
  obtain ⟨r, c, a, hr, hc, ha, hlir, hbody⟩ := exists_compile_of_any hbody
  have hbody := of_decide_eq_true hbody
  refine ⟨r, c, a, hr, hc, ha, hlir, hbody, fun hwritten => ?_⟩
  have hread : a.main.body.Reads [.instr (.staticCall "_Main_f" [] .discard)] (.general 0) := by
    rw [hbody]
    exact ⟨_, [], rfl, List.mem_singleton_self _⟩
  exact absurd (hwritten _ _ hread) (by decide)

end IcLir
