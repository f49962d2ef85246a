import IcLir.Lowering.Body

/-
  Lowering of methods and whole programs. Library methods have no code of their own, and
  classes of library methods only have no dispatch table.
-/

namespace IcLir

namespace Lowering

open Pass (promised)

/-- Whether a return has to be added at the end of a method. -/
def needsReturn (m : MethodDecl) : Bool := m.returnType.isVoid && !m.endsWithReturn

def lowerMethod (env : LowerEnv) (c : ClassDecl) (m : MethodDecl) : Lower Routine := do
  let scope ← env.methodScope m
  let label := if env.context.isEntry m then Routine.entryLabel
    else methodLabel c.name.name m.name.name
  let body ← lowerStmts env [] scope m.body
  return ⟨label, body ++ if needsReturn m then [Code.returnNothing] else []⟩

/-- The routines of a class, each with whether it is the entry method. -/
def lowerClass (context : Context) (strategy : Strategy) (c : ClassDecl) :
    Lower (List (Bool × Routine)) := do
  let type ← promised (context.types.class? c.name.name) (.unregisteredClass c.name.name)
  (c.methods.filter (·.kind ≠ .library)).mapM fun m => do
    return (context.isEntry m, ← lowerMethod ⟨context, strategy, type⟩ c m)

def dispatchTable (context : Context) (c : ClassDecl) : Lower DispatchTable := do
  let type ← promised (context.types.class? c.name.name) (.unregisteredClass c.name.name)
  let layout ← promised (context.layouts.get? type) (.noLayout type)
  return ⟨layout.dispatchLabel, layout.dispatchTable, layout.fields.entries⟩

def lowerProgram (context : Context) (strategy : Strategy) (p : Program) : Lower Assembly := do
  let classes := p.classes.filter fun c => !c.isLibrary
  let routines := (← classes.mapM (lowerClass context strategy)).flatten
  let methods := (routines.filter fun r => !r.1).map Prod.snd
  let main ← promised ((routines.filter Prod.fst).map Prod.snd).getLast? .entryNotGenerated
  let tables ← classes.mapM (dispatchTable context)
  return ⟨strategy = .pressureAware, (← get).strings, tables, methods, main⟩

end Lowering

/-- The LIR of an analysed program. -/
def Context.generate (c : Context) (strategy : Strategy) (p : Program) :
    Except CompileError Assembly :=
  match Lowering.lowerProgram c strategy p .initial with
  | .ok assembly _ => .ok assembly
  | .error e _ => .error e

end IcLir
