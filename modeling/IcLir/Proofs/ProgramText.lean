import IcLir.Lir.Assembly
import IcLir.Proofs.CodeRuns

/-
  The text of a program as a sequence of parts: remarks, string literals, dispatch tables and
  lines of code. The text is that of its parts, one after the other (`render_eq`), and a part
  that defines a label starts with it, so that the labels and the code of the parts are those of
  the text.
-/

namespace IcLir

def Line.text : Line → String
  | .label name => name ++ ":\n"
  | .instr i => i.opcode.mnemonic ++ " " ++ i.operandText ++ "\n"

theorem Listing.text_append (l : Listing) (code : Code) :
    (l.append code).text = l.text ++ String.join (code.map Line.text) := by
  induction code generalizing l with
  | nil => simp [append]
  | cons line code ih =>
    rw [append_cons, ih, List.map_cons, String.join_cons, ← String.append_assoc]
    cases line <;> simp [add, label, emit, Line.text, String.append_assoc]

theorem Listing.text_ofCode (code : Code) :
    (ofCode code).text = String.join (code.map Line.text) := by
  rw [ofCode, text_append, empty, String.empty_append]

/-! ## Parts -/

inductive Part where
  /-- A heading or a blank line. -/
  | remark (text : String)
  /-- A string literal under its label. -/
  | string (label quoted : String)
  | table (t : DispatchTable)
  | line (l : Line)

namespace Part

def text : Part → String
  | .remark text => text
  | .string label quoted => label ++ ": \"" ++ quoted ++ "\"\n"
  | .table t => t.render
  | .line l => l.text

/-- The label that a part defines. -/
def label? : Part → Option String
  | .remark _ => none
  | .string label _ => some label
  | .table t => some t.label
  | .line l => l.label?

def line? : Part → Option Line
  | .line l => some l
  | .remark _ | .string .. | .table _ => none

/-- A label stands at the start of the part that defines it. -/
theorem exists_text_eq {part : Part} {label : String} (h : part.label? = some label) :
    ∃ rest, part.text = label ++ ":" ++ rest := by
  cases part with
  | remark text => simp [label?] at h
  | string name quoted =>
    obtain rfl := Option.some.inj h
    exact ⟨" \"" ++ quoted ++ "\"\n", by simp [text, String.append_assoc, ← String.toList_inj]⟩
  | table t =>
    obtain rfl := Option.some.inj h
    have hcolon : ": [" = ":" ++ " [" := rfl
    exact ⟨_, by simp only [text, DispatchTable.render, hcolon, String.append_assoc]; rfl⟩
  | line l =>
    cases l with
    | label name =>
      obtain rfl := Option.some.inj h
      exact ⟨"\n", by simp [text, Line.text, ← String.toList_inj]⟩
    | instr i => simp [label?, Line.label?] at h

end Part

namespace Assembly

/-- Code followed by a blank line. -/
def codeParts (code : Code) : List Part := code.map .line ++ [.remark "\n"]

def stringParts (a : Assembly) : List Part :=
  Guard.all.map (fun g => .string g.messageLabel g.message) ++
    a.strings.texts.zipIdx.map (fun e => .string (StringPool.label e.2) (StringPool.escape e.1))

def parts (a : Assembly) : List Part :=
  [.remark (if a.optimized then "# optimized translation\n" else "")] ++
  [.remark "# string literals\n"] ++ a.stringParts ++ [.remark "\n"] ++
  [.remark "# class dispatch tables\n"] ++ a.tables.map .table ++
  [.remark "# runtime checks\n"] ++ Guard.all.flatMap (fun g => codeParts g.code) ++
  [.remark "# methods\n"] ++ a.methods.flatMap (fun r => codeParts r.code) ++
  [.remark "# main method\n"] ++ codeParts a.main.code ++ [.line (.label Guard.exitLabel)]

theorem join_text_codeParts (code : Code) :
    String.join ((codeParts code).map Part.text) = (Listing.ofCode code).text ++ "\n" := by
  rw [codeParts, List.map_append, String.join_append, Listing.text_ofCode, List.map_map]
  rfl

theorem join_text_flatMap_codeParts {α : Type} (code : α → Code) (l : List α) :
    String.join ((l.flatMap fun x => codeParts (code x)).map Part.text) =
      String.join (l.map fun x => (Listing.ofCode (code x)).text ++ "\n") := by
  induction l with
  | nil => rfl
  | cons x l ih =>
    rw [List.flatMap_cons, List.map_append, String.join_append, join_text_codeParts, ih,
      List.map_cons, String.join_cons]

theorem join_text_stringParts (a : Assembly) :
    String.join (a.stringParts.map Part.text) =
      String.join (Guard.all.map Guard.renderMessage) ++ a.strings.render := by
  rw [stringParts, List.map_append, String.join_append, List.map_map, List.map_map]
  rfl

/-- The text of a program is that of its parts. -/
theorem render_eq (a : Assembly) : a.render = String.join (a.parts.map Part.text) := by
  have htables : String.join ((a.tables.map Part.table).map Part.text) =
      String.join (a.tables.map DispatchTable.render) := by
    rw [List.map_map]
    rfl
  simp only [parts, List.map_append, String.join_append, join_text_stringParts, htables,
    join_text_flatMap_codeParts, join_text_codeParts]
  delta render
  simp only [List.map_cons, List.map_nil, String.join_cons, String.join_nil, Part.text,
    Line.text, String.append_empty, String.append_assoc]
  rfl

end Assembly

theorem Code.labels_flatMap {α : Type} (f : α → Code) (l : List α) :
    labels (l.flatMap f) = l.flatMap fun x => labels (f x) :=
  List.filterMap_flatMap ..

namespace Assembly

/-! ## The code and the labels of a program -/

/-- All lines of code in the text. -/
def code (a : Assembly) : Code := a.parts.filterMap Part.line?

/-- The labels that the text defines. -/
def labels (a : Assembly) : List String := a.parts.filterMap Part.label?

@[simp] theorem filterMap_line?_codeParts (code : Code) :
    (codeParts code).filterMap Part.line? = code := by
  simp [codeParts, Part.line?, Function.comp_def]

@[simp] theorem filterMap_label?_codeParts (code : Code) :
    (codeParts code).filterMap Part.label? = code.labels := by
  simp [codeParts, Part.label?, Function.comp_def, Code.labels]

theorem code_eq (a : Assembly) :
    a.code = Guard.all.flatMap Guard.code ++ a.routines.flatMap Routine.code ++
      [.label Guard.exitLabel] := by
  have hstrings : a.stringParts.filterMap Part.line? = [] := by
    simp [stringParts, Part.line?]
  have htables : (a.tables.map Part.table).filterMap Part.line? = [] := by
    simp [Part.line?]
  simp only [code, parts, List.filterMap_append, hstrings, htables, List.filterMap_flatMap,
    filterMap_line?_codeParts, routines, List.flatMap_append]
  simp [List.filterMap_cons, Part.line?]

theorem labels_eq (a : Assembly) :
    a.labels = Guard.all.map Guard.messageLabel ++
      (List.range a.strings.size).map StringPool.label ++ a.tables.map (·.label) ++
      a.code.labels := by
  have hstrings : a.stringParts.filterMap Part.label? = Guard.all.map Guard.messageLabel ++
      (List.range a.strings.size).map StringPool.label := by
    have hrange : a.strings.texts.zipIdx.map Prod.snd = List.range a.strings.size := by
      rw [List.zipIdx_map_snd, ← List.range_eq_range']
      rfl
    rw [← hrange, stringParts, List.filterMap_append, List.filterMap_map, List.filterMap_map,
      List.map_map]
    simp [Part.label?, Function.comp_def]
  have htables : (a.tables.map Part.table).filterMap Part.label? = a.tables.map (·.label) := by
    simp [Part.label?, Function.comp_def]
  simp only [code_eq, labels, parts, List.filterMap_append, hstrings, htables,
    List.filterMap_flatMap, filterMap_label?_codeParts, routines, List.flatMap_append,
    Code.labels_append, Code.labels_flatMap]
  simp [List.filterMap_cons, Part.label?, Line.label?]

end Assembly

end IcLir
