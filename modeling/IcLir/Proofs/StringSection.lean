import IcLir.Proofs.LabelUniqueness

/-
  The section of string literals and what can be read from it. The pool holds the texts that were
  asked for in the order of first use (`texts_internAll`), so the label of a text is the same
  whenever it is asked for. In the text of the section an escape never ends a line and never
  leaves a quote bare, so the lines can be told apart and undone one by one.
-/

namespace IcLir

namespace StringPool

/-- Asks for the labels of texts, one after the other. -/
def internAll (p : StringPool) : List String → List String × StringPool
  | [] => ([], p)
  | text :: rest =>
    let (label, p) := p.intern text
    let (labels, p) := p.internAll rest
    (label :: labels, p)

/-! ## Labels in the order of first use -/

/-- A text that is not in the pool yet is put behind all others. -/
theorem label_intern (p : StringPool) (text : String) :
    (p.intern text).1 = label (p.texts.idxOf text) := by
  rw [List.idxOf_eq_getD_idxOf?]
  unfold intern
  cases p.texts.idxOf? text <;> rfl

section

variable {p : StringPool} {done : List String}

theorem texts_intern (h : p.texts = done.eraseDups) (text : String) :
    (p.intern text).2.texts = (done ++ [text]).eraseDups := by
  have hmem : text ∈ p.texts ↔ text ∈ done := by rw [h, List.mem_eraseDups]
  rw [List.eraseDups_append]
  by_cases hd : text ∈ done
  · rw [intern_of_mem p (hmem.mpr hd), h]
    simp [List.removeAll, hd]
  · rw [texts_intern_of_not_mem p (mt hmem.mp hd), h]
    simp [List.removeAll, hd, List.eraseDups_cons]

/-- What is asked for later does not change the label of a text. -/
theorem label_intern_eq (h : p.texts = done.eraseDups) (text : String) (rest : List String) :
    (p.intern text).1 = label ((done ++ text :: rest).eraseDups.idxOf text) := by
  rw [label_intern, h, List.eraseDups_append, List.idxOf_append]
  by_cases hd : text ∈ done
  · rw [if_pos (List.mem_eraseDups.mpr hd)]
  · have hnew : text ∉ done.eraseDups := mt List.mem_eraseDups.mp hd
    have hfirst : (text :: rest).removeAll done = text :: rest.removeAll done := by
      simp [List.removeAll, hd]
    rw [if_neg hnew, hfirst, List.eraseDups_cons, List.idxOf_cons_self, Nat.zero_add,
      List.idxOf_eq_length hnew]

theorem texts_internAll (h : p.texts = done.eraseDups) (rest : List String) :
    (p.internAll rest).2.texts = (done ++ rest).eraseDups := by
  induction rest generalizing p done with
  | nil => rw [List.append_nil]; exact h
  | cons text rest ih =>
    have hrest := ih (texts_intern h text)
    rw [List.append_assoc, List.singleton_append] at hrest
    exact hrest

theorem labels_internAll (h : p.texts = done.eraseDups) (rest : List String) :
    (p.internAll rest).1 = rest.map fun text => label ((done ++ rest).eraseDups.idxOf text) := by
  induction rest generalizing p done with
  | nil => rfl
  | cons text rest ih =>
    have hrest := ih (texts_intern h text)
    rw [List.append_assoc, List.singleton_append] at hrest
    rw [List.map_cons, ← hrest, ← label_intern_eq h text rest]
    rfl

theorem nodup_texts_internAll (h : p.texts.Nodup) (rest : List String) :
    (p.internAll rest).2.texts.Nodup := by
  induction rest generalizing p with
  | nil => exact h
  | cons text rest ih => exact ih (nodup_texts_intern p text h)

end

theorem label_inj {i j : Nat} (h : label i = label j) : i = j :=
  Nat.repr_inj.mp ((String.append_right_inj "str").mp h)

/-! ## Undoing escapes -/

/-- What a character stands for behind a backslash. -/
def escaped? : Char → Option Char
  | '"' => some '"'
  | '\\' => some '\\'
  | 'n' => some '\n'
  | 't' => some '\t'
  | _ => none

/-- The text behind what stands between quotes. There is none if a backslash stands alone or
    before a character that it cannot stand before. -/
def unescape : List Char → Option (List Char)
  | [] => some []
  | [c] => if c = '\\' then none else some [c]
  | c :: d :: rest =>
    if c = '\\' then (escaped? d).bind fun x => (unescape rest).map (x :: ·)
    else (unescape (d :: rest)).map (c :: ·)

/-- Whether there is a quote that no backslash escapes. -/
def hasBareQuote : List Char → Bool
  | [] => false
  | [c] => c = '"'
  | c :: d :: rest => if c = '\\' then hasBareQuote rest else c = '"' || hasBareQuote (d :: rest)

theorem unescape_cons {c : Char} (hc : c ≠ '\\') (rest : List Char) :
    unescape (c :: rest) = (unescape rest).map (c :: ·) := by
  cases rest with
  | nil => simp [unescape, hc]
  | cons d rest => rw [unescape, if_neg hc]

theorem hasBareQuote_cons {c : Char} (hc : c ≠ '\\') (rest : List Char) :
    hasBareQuote (c :: rest) = (decide (c = '"') || hasBareQuote rest) := by
  cases rest with
  | nil => simp [hasBareQuote]
  | cons d rest => rw [hasBareQuote, if_neg hc]

/-- A character is escaped, or it stands for itself and is none of those that have to be. -/
theorem escapeChar_cases (c : Char) :
    (∃ d, escapeChar c = ['\\', d] ∧ escaped? d = some c) ∨
      escapeChar c = [c] ∧ c ≠ '\\' ∧ c ≠ '"' ∧ c ≠ '\n' := by
  unfold escapeChar
  split
  · exact .inl ⟨'"', rfl, rfl⟩
  · exact .inl ⟨'\\', rfl, rfl⟩
  · exact .inl ⟨'n', rfl, rfl⟩
  · exact .inl ⟨'t', rfl, rfl⟩
  · next hquote hslash hline _ => exact .inr ⟨rfl, hslash, hquote, hline⟩

theorem unescape_escape (text : List Char) : unescape (text.flatMap escapeChar) = some text := by
  induction text with
  | nil => rfl
  | cons c text ih =>
    rw [List.flatMap_cons]
    rcases escapeChar_cases c with ⟨d, hc, hd⟩ | ⟨hc, hslash, _⟩
    · rw [hc, List.cons_append, List.singleton_append, unescape, if_pos rfl, hd, ih]
      rfl
    · rw [hc, List.singleton_append, unescape_cons hslash, ih]
      rfl

theorem hasBareQuote_escape (text : List Char) :
    hasBareQuote (text.flatMap escapeChar) = false := by
  induction text with
  | nil => rfl
  | cons c text ih =>
    rw [List.flatMap_cons]
    rcases escapeChar_cases c with ⟨d, hc, _⟩ | ⟨hc, hslash, hquote, _⟩
    · rw [hc, List.cons_append, List.singleton_append, hasBareQuote, if_pos rfl, ih]
    · rw [hc, List.singleton_append, hasBareQuote_cons hslash, ih, decide_eq_false hquote]
      rfl

theorem newline_not_mem_escape (text : List Char) : '\n' ∉ text.flatMap escapeChar := by
  intro hmem
  obtain ⟨c, _, hc⟩ := List.mem_flatMap.mp hmem
  rcases escapeChar_cases c with ⟨d, heq, hd⟩ | ⟨heq, _, _, hline⟩
  · rw [heq, List.mem_cons, List.mem_singleton] at hc
    rcases hc with hslash | rfl
    · exact absurd hslash (by decide)
    · cases hd
  · rw [heq, List.mem_singleton] at hc
    exact hline hc.symm

/-! ## The lines of the section -/

/-- The line of the literal with number `index`, around what stands between its quotes. -/
def literalLine (quoted : List Char) (index : Nat) : List Char :=
  s!"str{index}: \"".toList ++ quoted ++ ['"']

theorem literalLine_eq (quoted : List Char) (index : Nat) :
    literalLine quoted index = (label index).toList ++ ": \"".toList ++ quoted ++ ['"'] := by
  have htext : s!"str{index}: \"" = label index ++ ": \"" := rfl
  rw [literalLine, htext, String.toList_append]

theorem newline_not_mem_literalLine {quoted : List Char} (h : '\n' ∉ quoted) (index : Nat) :
    '\n' ∉ literalLine quoted index := by
  have hdigits : '\n' ∉ Nat.toDigits 10 index := fun hmem =>
    absurd (Nat.isDigit_of_mem_toDigits (by decide) (by decide) hmem) (by decide)
  rw [literalLine_eq, toList_label]
  simp [h, hdigits]

theorem splitOn_flatMap_lines {lines : List (List Char)} (h : ∀ line ∈ lines, '\n' ∉ line) :
    (lines.flatMap (· ++ ['\n'])).splitOn '\n' = lines ++ [[]] := by
  induction lines with
  | nil => rfl
  | cons line lines ih =>
    have hline : ∀ x ∈ line, (x == '\n') = false := by
      intro x hx
      rw [beq_eq_false_iff_ne]
      rintro rfl
      exact h line List.mem_cons_self hx
    have hrest := ih fun l hl => h l (List.mem_cons_of_mem _ hl)
    rw [List.splitOn_eq_splitOnP] at hrest ⊢
    rw [List.flatMap_cons, List.append_assoc, List.singleton_append,
      List.splitOnP_append_cons_of_forall_mem hline _ (by decide), hrest, List.cons_append]

/-- What stands between the quotes of each line. -/
def quotedParts (p : StringPool) : List (List Char) :=
  p.texts.map fun text => text.toList.flatMap escapeChar

theorem toList_render (p : StringPool) :
    p.render.toList =
      (p.quotedParts.zipIdx.map fun e => literalLine e.1 e.2).flatMap (· ++ ['\n']) := by
  rw [render, String.toList_join, quotedParts, List.zipIdx_map, List.map_map, List.flatMap_map,
    List.flatMap_map]
  refine List.flatMap_congr fun e _ => ?_
  simp [literalLine_eq, escape]

theorem splitOn_render (p : StringPool) :
    p.render.toList.splitOn '\n' =
      (p.quotedParts.zipIdx.map fun e => literalLine e.1 e.2) ++ [[]] := by
  rw [toList_render]
  refine splitOn_flatMap_lines fun line hline => ?_
  obtain ⟨⟨quoted, index⟩, he, rfl⟩ := List.mem_map.mp hline
  have hquoted : quoted ∈ p.quotedParts := List.fst_mem_of_mem_zipIdx he
  obtain ⟨text, _, rfl⟩ := List.mem_map.mp hquoted
  exact newline_not_mem_literalLine (newline_not_mem_escape _) index

/-- Whatever texts are asked for, the text that is the `i`th of the distinct ones in the order of
    first use has the label `str<i>` at each request, and no other text has it. The section has
    one line for each of them, in this order, with no bare quote between the quotes, and undoing
    the escapes there gives the text. -/
theorem string_section_reads_back (texts : List String) :
    (∀ (i k : Nat) (text : String), texts.eraseDups[i]? = some text → texts[k]? = some text →
      (empty.internAll texts).1[k]? = some s!"str{i}") ∧
    (∀ (k k' : Nat) (l : String), (empty.internAll texts).1[k]? = some l →
      (empty.internAll texts).1[k']? = some l → texts[k]? = texts[k']?) ∧
    ∃ quoted : List (List Char),
      (empty.internAll texts).2.render.toList.splitOn '\n' =
        (quoted.zipIdx.map fun e => literalLine e.1 e.2) ++ [[]] ∧
      (∀ q ∈ quoted, hasBareQuote q = false) ∧
      quoted.map unescape = texts.eraseDups.map fun text => some text.toList := by
  have hempty : empty.texts = ([] : List String).eraseDups := rfl
  have hlabels := labels_internAll hempty texts
  have htexts := texts_internAll hempty texts
  have hnodup := nodup_texts_internAll (p := empty) List.nodup_nil texts
  rw [List.nil_append] at hlabels htexts
  rw [htexts] at hnodup
  refine ⟨fun i k text hi hk => ?_, fun k k' l hk hk' => ?_, (empty.internAll texts).2.quotedParts,
    splitOn_render _, fun q hq => ?_, ?_⟩
  · obtain ⟨hlt, rfl⟩ := List.getElem?_eq_some_iff.mp hi
    rw [hlabels, List.getElem?_map, hk, Option.map_some, hnodup.idxOf_getElem]
    rfl
  · rw [hlabels, List.getElem?_map, Option.map_eq_some_iff] at hk hk'
    obtain ⟨text, htext, rfl⟩ := hk
    obtain ⟨text', htext', heq⟩ := hk'
    have hmem : text' ∈ texts.eraseDups := List.mem_eraseDups.mpr (List.mem_of_getElem? htext')
    rw [htext, htext', (List.idxOf_inj hmem).mp (label_inj heq)]
  · obtain ⟨text, _, rfl⟩ := List.mem_map.mp hq
    exact hasBareQuote_escape _
  · rw [quotedParts, htexts, List.map_map]
    exact List.map_congr_left fun text _ => unescape_escape _

/-- A quote and a newline, then what the escaped newline looks like, then the first text again. -/
def sampleTexts : List String := ["a\"b\n", "\\n", "a\"b\n"]

theorem string_section_reads_back_sample :
    sampleTexts.eraseDups = ["a\"b\n", "\\n"] ∧
    (empty.internAll sampleTexts).1[2]? = some "str0" ∧
    ∃ quoted : List (List Char),
      (empty.internAll sampleTexts).2.render.toList.splitOn '\n' =
        (quoted.zipIdx.map fun e => literalLine e.1 e.2) ++ [[]] ∧
      (∀ q ∈ quoted, hasBareQuote q = false) ∧
      quoted.map unescape = [some ['a', '"', 'b', '\n'], some ['\\', 'n']] := by
  have hdistinct : sampleTexts.eraseDups = ["a\"b\n", "\\n"] := by decide
  obtain ⟨hlabel, _, hsection⟩ := string_section_reads_back sampleTexts
  rw [hdistinct] at hlabel hsection
  exact ⟨hdistinct, hlabel 0 2 _ rfl rfl, hsection⟩

end StringPool

end IcLir
