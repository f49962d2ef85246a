/-
  Source positions. A span is a line, a column and a length; a node whose exact place is not
  known stands at the first column of its line with length 0.
-/

namespace IcLir

structure Span where
  line : Nat
  col : Nat
  len : Nat
deriving DecidableEq, Repr, Inhabited

namespace Span

def ofLine (line : Nat) : Span := ⟨line, 1, 0⟩

def isEmpty (s : Span) : Bool := s.len == 0

/-- The text `line:col`. -/
def position (s : Span) : String := s!"{s.line}:{s.col}"

end Span

/-- A name as written, with the place where it is written. -/
structure Ident where
  name : String
  span : Span
deriving DecidableEq, Repr, Inhabited

/-- The identity of a tree node. Two nodes of one program never share it, however alike they
    look, so that facts about a node can be kept in tables. -/
abbrev NodeId := Nat

end IcLir
