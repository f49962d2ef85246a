import IcLir.Definition
import IcLir.Lowering.Program
import IcLir.Scope.Text
import IcLir.Typing.Check

/-
  Whole compilations. A program is either rejected with one error or accepted; an accepted
  program has its types and symbols described and, when compiled, its LIR text.
-/

namespace IcLir

/-- Runs both analysis stages and lays out the classes. -/
def Context.analyze (p : Program) : Pass Context Unit := do
  Context.define p
  Context.check p
  Context.layOut

/-- The context of an accepted program. -/
def analyzed (options : Options) (p : Program) : Except CompileError Context :=
  match Context.analyze p (.initial options) with
  | .ok _ c => .ok c
  | .error e _ => .error e

def Context.typeTable (c : Context) : String := c.types.render

def Context.symbolTables (c : Context) : String := c.scopes.render c.types

structure Analysis where
  typeTable : String
  symbolTables : String
  /-- The entry method as `Class.method`. -/
  entry : String
deriving DecidableEq, Repr, Inhabited

def analyze (options : Options) (p : Program) : Except CompileError Analysis := do
  let c ← analyzed options p
  match c.entryText? with
  | some entry => .ok ⟨c.typeTable, c.symbolTables, entry⟩
  | none => .error (.defect .entryNotFound)

structure Statistics where
  classes : Nat
  methods : Nat
  instructions : Nat
  stringLiterals : Nat
deriving DecidableEq, Repr, Inhabited

structure Compilation where
  lir : String
  typeTable : String
  symbolTables : String
  statistics : Statistics
deriving DecidableEq, Repr, Inhabited

def compile (options : Options) (p : Program) : Except CompileError Compilation := do
  let c ← analyzed options p
  let assembly ← c.generate options.strategy p
  .ok ⟨assembly.render, c.typeTable, c.symbolTables,
    ⟨c.layouts.size, assembly.methodCount, assembly.instructionCount, assembly.stringCount⟩⟩

end IcLir
