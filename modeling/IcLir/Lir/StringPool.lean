/-
  The string literals of a program. Each distinct text is kept once, and is labelled by its
  place in the order of first use.
-/

namespace IcLir

structure StringPool where
  texts : List String
deriving DecidableEq, Repr, Inhabited

namespace StringPool

def empty : StringPool := ⟨[]⟩

def size (p : StringPool) : Nat := p.texts.length

def label (index : Nat) : String := s!"str{index}"

def intern (p : StringPool) (text : String) : String × StringPool :=
  match p.texts.idxOf? text with
  | some index => (label index, p)
  | none => (label p.size, ⟨p.texts ++ [text]⟩)

/-- A text that is in the pool keeps its label and the pool stays as it is. -/
theorem intern_of_mem (p : StringPool) {text : String} (h : text ∈ p.texts) :
    (p.intern text).2 = p := by
  unfold intern
  split
  · rfl
  · next hn => exact absurd h (by simpa using List.idxOf?_eq_none_iff.mp hn)

theorem texts_intern_of_not_mem (p : StringPool) {text : String} (h : text ∉ p.texts) :
    (p.intern text).2.texts = p.texts ++ [text] := by
  unfold intern
  rw [List.idxOf?_eq_none_iff.mpr h]

theorem nodup_texts_intern (p : StringPool) (text : String) (h : p.texts.Nodup) :
    (p.intern text).2.texts.Nodup := by
  by_cases hm : text ∈ p.texts
  · rw [intern_of_mem p hm]; exact h
  · rw [texts_intern_of_not_mem p hm, List.nodup_append]
    refine ⟨h, by simp, ?_⟩
    intro a ha b hb e
    rw [List.mem_singleton] at hb
    exact hm (hb ▸ e ▸ ha)

/-- A character as written between double quotes. -/
def escapeChar : Char → List Char
  | '"' => ['\\', '"']
  | '\\' => ['\\', '\\']
  | '\n' => ['\\', 'n']
  | '\t' => ['\\', 't']
  | c => [c]

def escape (text : String) : String := String.ofList (text.toList.flatMap escapeChar)

/-- One line per text, each with its label. -/
def render (p : StringPool) : String :=
  String.join (p.texts.zipIdx.map fun (text, index) =>
    label index ++ ": \"" ++ escape text ++ "\"\n")

end StringPool

end IcLir
