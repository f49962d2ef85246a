import IcLir.Tree.Span

/-
  Diagnostics as they are reported: a rejected program gets a category, a detail, the offending
  token and its place; a defect of the compiler itself has a detail only.
-/

namespace IcLir

inductive Category where
  | definition
  | signature
  | scope
  | typeMismatch
  | arity
deriving DecidableEq, Repr, Inhabited

inductive Diagnostic where
  | rejection (category : Category) (detail token : String) (span : Span)
  | defect (detail : String)
deriving DecidableEq, Repr, Inhabited

namespace Diagnostic

def detail : Diagnostic → String
  | .rejection _ detail _ _ => detail
  | .defect detail => detail

def token : Diagnostic → String
  | .rejection _ _ token _ => token
  | .defect _ => ""

def span? : Diagnostic → Option Span
  | .rejection _ _ _ span => some span
  | .defect _ => none

/-- The line a diagnostic points at, 0 when it points nowhere. -/
def line (d : Diagnostic) : Nat := (d.span?.map Span.line).getD 0

def message : Diagnostic → String
  | .rejection _ detail token span => s!"semantic error at line {span.line}: {detail}: {token}"
  | .defect detail => s!"internal consistency error: {detail}"

end Diagnostic

end IcLir
