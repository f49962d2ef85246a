import IcLir.Lir.Instr

/-
  The printed form of code: one line per label or instruction, with a count of instructions.
-/

namespace IcLir

structure Listing where
  text : String
  instructions : Nat
deriving DecidableEq, Repr, Inhabited

namespace Listing

def empty : Listing := ⟨"", 0⟩

def label (l : Listing) (name : String) : Listing := { l with text := l.text ++ name ++ ":\n" }

def emit (l : Listing) (op : Opcode) (operands : String) : Listing :=
  ⟨l.text ++ op.mnemonic ++ " " ++ operands ++ "\n", l.instructions + 1⟩

def add (l : Listing) : Line → Listing
  | .label name => l.label name
  | .instr i => l.emit i.opcode i.operandText

def append (l : Listing) (code : Code) : Listing := code.foldl add l

theorem append_cons (l : Listing) (line : Line) (code : Code) :
    l.append (line :: code) = (l.add line).append code := rfl

def ofCode (code : Code) : Listing := empty.append code

end Listing

end IcLir
