import IcLir.Lir.Guard
import IcLir.Lir.StringPool

/-
  A complete LIR program and its text. The sections stand in a fixed order: string literals,
  dispatch tables, guard routines, methods, the entry method and the exit label.
-/

namespace IcLir

structure DispatchTable where
  label : String
  entries : List String
  /-- The fields of the class with their offsets, printed as a comment. -/
  fields : List (String × Nat)
deriving DecidableEq, Repr, Inhabited

def DispatchTable.render (t : DispatchTable) : String :=
  t.label ++ ": [" ++ ",".intercalate t.entries ++ "]\n# fields offsets:\n" ++
    String.join (t.fields.map fun f => s!"# {f.1}: {f.2}\n") ++ "\n"

/-- A method's code under its label. -/
structure Routine where
  label : String
  body : Code
deriving DecidableEq, Repr, Inhabited

namespace Routine

/-- The label of the entry method. -/
def entryLabel : String := "_ic_main"

def code (r : Routine) : Code := .label r.label :: r.body

def listing (r : Routine) : Listing := .ofCode r.code

end Routine

structure Assembly where
  optimized : Bool
  strings : StringPool
  tables : List DispatchTable
  methods : List Routine
  main : Routine
deriving DecidableEq, Repr, Inhabited

namespace Assembly

def routines (a : Assembly) : List Routine := a.methods ++ [a.main]

def methodCount (a : Assembly) : Nat := a.routines.length

def instructionCount (a : Assembly) : Nat :=
  a.routines.foldl (fun count r => count + r.listing.instructions) 0

def stringCount (a : Assembly) : Nat := a.strings.size

def render (a : Assembly) : String :=
  (if a.optimized then "# optimized translation\n" else "") ++
  "# string literals\n" ++ String.join (Guard.all.map Guard.renderMessage) ++
  a.strings.render ++ "\n" ++
  "# class dispatch tables\n" ++ String.join (a.tables.map DispatchTable.render) ++
  "# runtime checks\n" ++ String.join (Guard.all.map Guard.render) ++
  "# methods\n" ++ String.join (a.methods.map fun m => m.listing.text ++ "\n") ++
  "# main method\n" ++ a.main.listing.text ++ "\n" ++ Guard.exitLabel ++ ":\n"

end Assembly

end IcLir
