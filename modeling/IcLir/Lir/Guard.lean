import IcLir.Lir.Listing

/-
  Runtime guards. Each is a small routine that is called before a dangerous instruction; when
  the guarded values are bad it prints a fixed message and leaves the program through the exit
  label at its end.
-/

namespace IcLir

inductive Guard where
  /-- A reference is not null. -/
  | nullRef
  /-- An index lies within its array. -/
  | arrayAccess
  /-- The size of an allocation is not negative. -/
  | size
  /-- A divisor is not zero. -/
  | zero
deriving DecidableEq, Repr, Inhabited

namespace Guard

/-- The label at the very end of a program. -/
def exitLabel : String := "_error_exit"

def all : List Guard := [.nullRef, .arrayAccess, .size, .zero]

def routine : Guard → String
  | .nullRef => "__checkNullRef"
  | .arrayAccess => "__checkArrayAccess"
  | .size => "__checkSize"
  | .zero => "__checkZero"

def errorLabel (g : Guard) : String := g.routine ++ "_err"

def messageLabel : Guard → String
  | .nullRef => "str_null_ref"
  | .arrayAccess => "str_array_access"
  | .size => "str_size"
  | .zero => "str_zero"

def message : Guard → String
  | .nullRef => "Runtime Error: Null pointer dereference!"
  | .arrayAccess => "Runtime Error: Array index out of bounds!"
  | .size => "Runtime Error: Array allocation with negative array size!"
  | .zero => "Runtime Error: Division by zero!"

/-- The names of the guarded values, in call order. -/
def formals : Guard → List String
  | .nullRef => ["a"]
  | .arrayAccess => ["a", "i"]
  | .size => ["n"]
  | .zero => ["b"]

def named? (routine : String) : Option Guard := all.find? (·.routine = routine)

/-- The tests of a routine; a bad value jumps to the error label. -/
def tests (g : Guard) : List Instr :=
  let first := Operand.reg (.scratch 1)
  match g with
  | .nullRef =>
    [.move (.slot "a") first,
     .compare (.int 0) (.scratch 1),
     .jump (.when .eq) g.errorLabel]
  | .arrayAccess =>
    [.move (.slot "a") first,
     .move (.slot "i") (.reg (.scratch 2)),
     .arrayLength (.scratch 1) (.scratch 1),
     .compare first (.scratch 2),
     .jump (.when .ge) g.errorLabel,
     .compare (.int 0) (.scratch 2),
     .jump (.when .lt) g.errorLabel]
  | .size =>
    [.move (.slot "n") first,
     .compare (.int 0) (.scratch 1),
     .jump (.when .lt) g.errorLabel]
  | .zero =>
    [.move (.slot "b") first,
     .compare (.int 0) (.scratch 1),
     .jump (.when .eq) g.errorLabel]

/-- The whole routine. -/
def code (g : Guard) : Code :=
  .label g.routine :: g.tests.map .instr ++
    [Code.returnNothing,
     .label g.errorLabel,
     .instr (.library "__println" [.label g.messageLabel] .discard),
     .instr (.jump .always exitLabel)]

/-- The routine's text, followed by a blank line. -/
def render (g : Guard) : String := (Listing.ofCode g.code).text ++ "\n"

/-- The message with its label. -/
def renderMessage (g : Guard) : String := s!"{g.messageLabel}: \"{g.message}\"\n"

/-- The call of a guard on the given registers. -/
def call (g : Guard) (registers : List Nat) : Line :=
  .instr (.staticCall g.routine (g.formals.zip (registers.map .general)) .discard)

end Guard

end IcLir
