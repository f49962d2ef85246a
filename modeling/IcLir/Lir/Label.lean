/-
  Labels for control flow. Every construct that jumps takes a fresh number and names its labels
  after it. `break` and `continue` go to the labels of the innermost loop.
-/

namespace IcLir

/-- The labels of one construct. -/
structure LabelSet where
  number : Nat
deriving DecidableEq, Repr, Inhabited

namespace LabelSet

def trueLabel (l : LabelSet) : String := s!"_true_label{l.number}"

def falseLabel (l : LabelSet) : String := s!"_false_label{l.number}"

def endLabel (l : LabelSet) : String := s!"_end_label{l.number}"

def conditionLabel (l : LabelSet) : String := s!"_while_cond_label{l.number}"

end LabelSet

/-- The loops around a statement, innermost first. -/
abbrev Loops := List LabelSet

namespace Loops

def breakTarget? (loops : Loops) : Option String := loops.head?.map LabelSet.endLabel

def continueTarget? (loops : Loops) : Option String := loops.head?.map LabelSet.conditionLabel

end Loops

end IcLir
