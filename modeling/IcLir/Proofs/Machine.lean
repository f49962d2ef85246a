import IcLir.Lir.Assembly

/-
  A machine that runs LIR code. The first operand of an instruction is read and the second is
  changed, `Compare a,b` keeps the sign of `b - a` for the jumps that follow, and a jump goes
  to its label within the code that runs. A guard call stops the run if the tests of its
  routine jump to the error label; other calls are not run here.
-/

namespace IcLir

/-- What a register, a slot or a place in memory holds. Null and false are 0, true is 1. -/
inductive Word where
  | int (n : Int)
  | string (text : String)
  | address (a : Nat)
deriving DecidableEq, Repr, Inhabited

namespace Word

def null : Word := .int 0

def ofBool : Bool → Word
  | true => .int 1
  | false => .int 0

end Word

/-- What the instruction set leaves open: the width of numbers, the words that labels stand
    for, and what an operation makes of a word that it is not meant for. -/
structure Platform where
  arith : ArithOp → Int → Int → Int
  neg : Int → Int
  xor : Int → Int → Int
  /-- The sign of the first word less the second. -/
  order : Word → Word → Ordering
  /-- A word taken as a number. -/
  number : Word → Int
  /-- A word taken as a text. -/
  text : Word → String
  label : String → Word
  xor_zero_one : xor 0 1 = 1
  xor_one_one : xor 1 1 = 0
  order_eq_iff : ∀ v w, order v w = .eq ↔ v = w
  order_lt_iff : ∀ a b, order (.int a) (.int b) = .lt ↔ a < b
  number_int : ∀ n, number (.int n) = n
  text_string : ∀ s, text (.string s) = s

/-- Numbers without bound; other words are only told apart. -/
def Platform.exact : Platform where
  arith op a b :=
    match op with
    | .add => a + b
    | .sub => a - b
    | .mul => a * b
    | .div => a.tdiv b
    | .mod => a.tmod b
  neg n := -n
  xor a b := a.toNat ^^^ b.toNat
  order v w :=
    match v, w with
    | .int a, .int b => if a < b then .lt else if a = b then .eq else .gt
    | v, w => if v = w then .eq else .gt
  number
    | .int n => n
    | _ => 0
  text
    | .string s => s
    | _ => "null"
  label name := .string name
  xor_zero_one := rfl
  xor_one_one := rfl
  order_eq_iff v w := by
    split
    · next a b =>
      rw [Word.int.injEq]
      split
      · simp; omega
      · split <;> simp_all
    · split <;> simp_all
  order_lt_iff a b := by
    dsimp only
    split
    · simp_all
    · split <;> simp_all
  number_int _ := rfl
  text_string _ := rfl

/-- The words of objects and arrays, by the word that points at them. -/
structure Memory where
  field : Word → Nat → Word
  length : Word → Word
  element : Word → Word → Word

structure Machine where
  registers : Register → Word
  slots : String → Word
  memory : Memory
  /-- The sign that the last comparison left. -/
  sign : Ordering

namespace Machine

def set (m : Machine) (r : Register) (w : Word) : Machine :=
  { m with registers := fun r' => if r' = r then w else m.registers r' }

def setSlot (m : Machine) (name : String) (w : Word) : Machine :=
  { m with slots := fun name' => if name' = name then w else m.slots name' }

def setSign (m : Machine) (sign : Ordering) : Machine := { m with sign := sign }

section

variable (m : Machine) (r : Register) (w : Word)

@[simp] theorem set_registers_self : (m.set r w).registers r = w := if_pos rfl

theorem set_registers_of_ne {r' : Register} (h : r' ≠ r) :
    (m.set r w).registers r' = m.registers r' := if_neg h

end

/-- The word that an operand stands for. -/
def value (P : Platform) (m : Machine) : Operand → Word
  | .reg r => m.registers r
  | .int n => .int n
  | .label name => P.label name
  | .slot name => m.slots name
  | .field base offset => m.memory.field (m.registers (.general base)) offset
  | .element base index =>
    m.memory.element (m.registers (.general base)) (m.registers (.general index))

/-- Puts a word where an operand is; a literal is no place. -/
def store (m : Machine) (w : Word) : Operand → Option Machine
  | .reg r => some (m.set r w)
  | .slot name => some (m.setSlot name w)
  | .field base offset =>
    let object := m.registers (.general base)
    let field := fun v k => if v = object ∧ k = offset then w else m.memory.field v k
    some { m with memory := { m.memory with field := field } }
  | .element base index =>
    let array := m.registers (.general base)
    let i := m.registers (.general index)
    let element := fun v j => if v = array ∧ j = i then w else m.memory.element v j
    some { m with memory := { m.memory with element := element } }
  | .int _ | .label _ => none

/-- The machine inside a routine that is called with the given arguments. -/
def enter (m : Machine) (bindings : List (String × Register)) : Machine :=
  { m with slots := fun name =>
      ((bindings.find? (·.1 = name)).map fun b => m.registers b.2).getD Word.null }

end Machine

/-- Whether a comparison holds of two words, by the sign of their difference. -/
def CompareOp.holds (op : CompareOp) (sign : Ordering) : Bool :=
  match op with
  | .eq => sign = .eq
  | .ne => sign ≠ .eq
  | .lt => sign = .lt
  | .le => sign ≠ .gt
  | .gt => sign = .gt
  | .ge => sign ≠ .lt

def Condition.holds (c : Condition) (sign : Ordering) : Bool :=
  match c with
  | .always => true
  | .when op => op.holds sign

/-- The routine that joins two strings. -/
def Platform.concatRoutine : String := "__stringCat"

/-- An instruction that goes on to the next one. -/
def Instr.run (P : Platform) (m : Machine) : Instr → Option Machine
  | .move src dst => m.store (m.value P src) dst
  | .arrayLength array dst => some (m.set dst (m.memory.length (m.registers array)))
  | .arith op src dst =>
    some (m.set dst (.int (P.arith op (P.number (m.registers dst)) (P.number (m.value P src)))))
  | .xor src dst =>
    some (m.set dst (.int (P.xor (P.number (m.registers dst)) (P.number (m.value P src)))))
  | .neg dst => some (m.set dst (.int (P.neg (P.number (m.registers dst)))))
  | .compare src dst => some (m.setSign (P.order (m.registers dst) (m.value P src)))
  | .library routine [left, right] result =>
    if routine = Platform.concatRoutine then
      some (m.set result (.string (P.text (m.value P left) ++ P.text (m.value P right))))
    else none
  | .library .. | .jump .. | .staticCall .. | .virtualCall .. | .ret _ => none

namespace Guard

/-- Whether the tests of a routine jump to its error label. -/
def jumpsOut (P : Platform) (g : Guard) : List Instr → Machine → Bool
  | [], _ => false
  | .jump condition target :: tests, m =>
    if condition.holds m.sign then target = g.errorLabel else jumpsOut P g tests m
  | test :: tests, m => ((test.run P m).map (jumpsOut P g tests)).getD false

/-- Whether a guard stops the run when called with the given arguments. -/
def fails (P : Platform) (g : Guard) (bindings : List (String × Register)) (m : Machine) : Bool :=
  g.jumpsOut P g.tests (m.enter bindings)

end Guard

/-- What follows a label in the code. -/
def Code.after? (name : String) : Code → Option Code
  | [] => none
  | .label n :: code => if n = name then some code else after? name code
  | .instr _ :: code => after? name code

/-- How far a run has come. -/
inductive Config where
  /-- The given code is still to be run. -/
  | running (rest : Code) (m : Machine)
  | returned (w : Word) (m : Machine)
  | stopped (g : Guard) (m : Machine)

/-- One line of a run through `code`. -/
def Code.step (P : Platform) (code : Code) : Code → Machine → Option Config
  | [], _ => none
  | .label _ :: rest, m => some (.running rest m)
  | .instr (.jump condition target) :: rest, m =>
    if condition.holds m.sign then (code.after? target).map (.running · m)
    else some (.running rest m)
  | .instr (.staticCall label bindings _) :: rest, m =>
    (Guard.named? label).map fun g =>
      if g.fails P bindings m then .stopped g m else .running rest m
  | .instr (.ret operand) :: _, m => some (.returned (m.value P operand) m)
  | .instr i :: rest, m => (i.run P m).map (.running rest)

/-- What a run through `code` comes to. -/
inductive Code.Reaches (P : Platform) (code : Code) : Config → Config → Prop where
  | refl {k : Config} : Reaches P code k k
  | step {rest : Code} {m : Machine} {k k' : Config} :
    code.step P rest m = some k → Reaches P code k k' → Reaches P code (.running rest m) k'

theorem Code.Reaches.trans {P : Platform} {code : Code} {k k' k'' : Config}
    (h : code.Reaches P k k') (h' : code.Reaches P k' k'') : code.Reaches P k k'' := by
  induction h with
  | refl => exact h'
  | step hstep _ ih => exact .step hstep (ih h')

end IcLir
