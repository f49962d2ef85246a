import IcLir.Proofs.TypeInterning

/-
  Names of types. Every type is named after the types that it is made from, and these come before
  it (`name_eq_text`). A type with brackets is named by its root, which is a primitive or a class,
  followed by the brackets (`name_nested`). Taking the brackets off a name stops at the root as
  long as no class name ends in brackets itself; then the name of a type leads back to it, and a
  written type is found by its text.
-/

namespace IcLir

/-- A type without brackets that values can have. -/
def TypeKind.isRoot : TypeKind → Bool
  | .primitive _ | .classType .. => true
  | .array _ | .method _ => false

namespace TypeTable

variable {t t' : TypeTable} {id : TypeId} {name : String}

/-- A primitive, a class or an array over one of these, nested to any depth. -/
inductive IsValueType (t : TypeTable) : TypeId → Prop where
  | root {id : TypeId} {k : TypeKind} : t.kind? id = some k → k.isRoot = true → t.IsValueType id
  | array {id element : TypeId} : t.kind? id = some (.array element) → t.IsValueType element →
    t.IsValueType id

/-- The text ends in a pair of brackets. -/
def EndsInBrackets (name : String) : Prop := "[]".toList <:+ name.toList

instance (name : String) : Decidable (EndsInBrackets name) :=
  inferInstanceAs (Decidable (_ <:+ _))

/-! ## Names are made from earlier names -/

/-- The names that are made already stay as they are. -/
theorem isPrefix_foldl_text (kinds : List TypeKind) (names : List String) :
    names <+: kinds.foldl (fun names k => names ++ [k.text names]) names := by
  induction kinds generalizing names with
  | nil => exact ⟨[], List.append_nil names⟩
  | cons k kinds ih => exact (List.prefix_append names [k.text names]).trans (ih _)

theorem getElem?_foldl_text (kinds : List TypeKind) (names : List String) (i : Nat) :
    (kinds.foldl (fun names k => names ++ [k.text names]) names)[names.length + i]? =
      kinds[i]?.map fun k => k.text
        ((kinds.foldl (fun names k => names ++ [k.text names]) names).take (names.length + i)) := by
  induction kinds generalizing names i with
  | nil => simp
  | cons k kinds ih =>
    rw [List.foldl_cons]
    cases i with
    | zero =>
      -- the name of `k` comes right after those that are there
      obtain ⟨later, hlater⟩ := isPrefix_foldl_text kinds (names ++ [k.text names])
      rw [← hlater]
      simp
    | succ i =>
      have hrest := ih (names ++ [k.text names]) i
      rw [List.length_append, List.length_singleton, Nat.add_assoc, Nat.add_comm 1] at hrest
      exact hrest

section

variable {t : TypeTable} {id : TypeId}

theorem name_eq_text {k : TypeKind} (h : t.kind? id = some k) :
    t.name id = k.text (t.names.take id) := by
  have hname := getElem?_foldl_text t.kinds [] id
  rw [List.length_nil, Nat.zero_add, show t.kinds[id]? = some k from h] at hname
  rw [name, List.getD_eq_getElem?_getD, names, hname]
  rfl

theorem name_array {element : TypeId} (h : t.kind? id = some (.array element))
    (hlt : element < id) : t.name id = t.name element ++ "[]" := by
  rw [name_eq_text h, TypeKind.text, name, List.getD_eq_getElem?_getD, List.getD_eq_getElem?_getD,
    List.getElem?_take_of_lt hlt]

end

/-! ## What the names of a table rest on -/

/-- Each type has one number, the primitives have theirs, and no class has the name of one. -/
structure Distinct (t : TypeTable) : Prop where
  interned : t.Interned
  isPrefix : initial.kinds <+: t.kinds
  classNames : ∀ id name ancestors, t.kind? id = some (.classType name ancestors) →
    Primitive.named? name = none

theorem named?_eq_none_of_addClass {superclass : Option String}
    (h : t.addClass name superclass = .ok (id, t')) : Primitive.named? name = none := by
  unfold addClass at h
  cases hname : Primitive.named? name with
  | none => rfl
  | some q =>
    rw [hname, Option.isSome_some, Bool.or_true, if_pos rfl] at h
    cases h

theorem classNames_after (r : TypeRequest)
    (h : ∀ id name ancestors, t.kind? id = some (.classType name ancestors) →
      Primitive.named? name = none) :
    ∀ id name ancestors, (t.after r).kind? id = some (.classType name ancestors) →
      Primitive.named? name = none := by
  intro id name ancestors hk
  rcases t.after_cases r with he | ⟨name', superclass, id', hadd⟩
  · rcases he.kind?_cases id with heq | ⟨_, k, hk', hclass⟩
    · exact h id name ancestors (heq ▸ hk)
    · obtain rfl := Option.some.inj (hk.symm.trans hk')
      cases hclass
  · -- the class is new, or it was there
    have hnew := named?_eq_none_of_addClass hadd
    have hmem : .classType name ancestors ∈ (t.after r).kinds := List.mem_of_getElem? hk
    have hold : .classType name ancestors ∈ t.kinds → Primitive.named? name = none := by
      intro hold
      obtain ⟨i, hi⟩ := List.mem_iff_getElem?.mp hold
      exact h i name ancestors hi
    obtain ⟨_, _, ⟨_, ht⟩ | ⟨_, _, _, _, ht⟩⟩ := addClass_eq_ok hadd
    all_goals
      rw [ht, List.mem_append, List.mem_singleton] at hmem
      rcases hmem with hmem | heq
      · exact hold hmem
      · rw [(TypeKind.classType.inj heq).1]
        exact hnew

theorem Leads.distinct (h : initial.Leads t) : t.Distinct := by
  obtain ⟨hinterned, hprefix⟩ := h.interned interned_initial (List.prefix_refl _)
  refine ⟨hinterned, hprefix, ?_⟩
  clear hinterned hprefix
  induction h with
  | refl =>
    intro id name ancestors hk
    obtain ⟨q, _, heq⟩ := List.mem_map.mp (List.mem_of_getElem? hk)
    cases heq
  | step _ _ ih => exact classNames_after _ ih

namespace Distinct

variable {t : TypeTable} {id : TypeId}

theorem kind?_primitive (h : t.Distinct) (q : Primitive) :
    t.kind? q.id = some (.primitive q) := by
  have hlt : q.id < initial.size := by cases q <;> decide
  rw [kind?_of_isPrefix h.isPrefix hlt]
  cases q <;> rfl

theorem class?_eq_some (h : t.Distinct) {name : String} {ancestors : List TypeId}
    (hk : t.kind? id = some (.classType name ancestors)) : t.class? name = some id := by
  cases hc : t.class? name with
  | none =>
    exact absurd (TypeKind.sameType_self _)
      (not_sameType_of_class?_eq_none hc _ (List.mem_of_getElem? hk))
  | some id' =>
    obtain ⟨hlt, hnamed, _⟩ := List.findIdx?_eq_some_iff_getElem.mp hc
    have hk' : t.kind? id' = some t.kinds[id'] := List.getElem?_eq_getElem hlt
    cases hkind : t.kinds[id'] with
    | classType name' ancestors' =>
      rw [hkind] at hnamed hk'
      have hsame : (TypeKind.classType name' ancestors').SameType (.classType name ancestors) := by
        simpa [TypeKind.isClassNamed, TypeKind.SameType] using hnamed
      rw [h.interned.eq_of_sameType hk' hk hsame]
    | primitive | array | method =>
      rw [hkind] at hnamed
      cases hnamed

theorem idxOf?_array (h : t.Distinct) {element : TypeId} (hk : t.kind? id = some (.array element)) :
    t.kinds.idxOf? (.array element) = some id := by
  cases hi : t.kinds.idxOf? (.array element) with
  | none => exact absurd (List.mem_of_getElem? hk) (List.idxOf?_eq_none_iff.mp hi)
  | some id' =>
    obtain ⟨hlt, hkind, _⟩ := List.idxOf?_eq_some_iff.mp hi
    have hk' : t.kind? id' = some (.array element) := by
      rw [kind?, List.getElem?_eq_getElem hlt, hkind]
    rw [h.interned.eq_of_sameType hk' hk (TypeKind.sameType_self _)]

/-- A root is found by its name. -/
theorem spelledBase?_name (h : t.Distinct) {k : TypeKind} (hk : t.kind? id = some k)
    (hroot : k.isRoot = true) : t.spelledBase? (t.name id) = some id := by
  rw [name_eq_text hk, spelledBase?]
  cases k with
  | primitive q =>
    have hnamed : Primitive.named? q.text = some q := by cases q <;> decide
    rw [TypeKind.text, hnamed, h.interned.eq_of_sameType hk (h.kind?_primitive q) rfl]
    rfl
  | classType name ancestors =>
    rw [TypeKind.text, h.classNames id name ancestors hk, h.class?_eq_some hk]
    rfl
  | array | method => cases hroot

/-- The base of a written type is a root, and is shown as it is written. -/
theorem exists_root_of_base? (h : t.Distinct) {b : BaseType} (hb : t.base? b = some id) :
    ∃ k, t.kind? id = some k ∧ k.isRoot = true ∧ t.name id = b.text := by
  have hprimitive : ∀ q : Primitive, some q.id = some id → q.text = b.text →
      ∃ k, t.kind? id = some k ∧ k.isRoot = true ∧ t.name id = b.text := by
    intro q hq htext
    obtain rfl := Option.some.inj hq
    exact ⟨_, h.kind?_primitive q, rfl, (name_eq_text (h.kind?_primitive q)).trans htext⟩
  cases b with
  | int => exact hprimitive .int hb rfl
  | boolean => exact hprimitive .boolean hb rfl
  | string => exact hprimitive .string hb rfl
  | void => exact hprimitive .void hb rfl
  | named name =>
    obtain ⟨ancestors, hk⟩ := kind?_of_class? hb
    exact ⟨_, hk, rfl, name_eq_text hk⟩

/-- Every type that values can have is made from a root. -/
theorem exists_root (h : t.Distinct) (hid : t.IsValueType id) :
    ∃ root dims k, t.kind? root = some k ∧ k.isRoot = true ∧ t.nested? root dims = some id := by
  induction hid with
  | root hk hroot => exact ⟨_, 0, _, hk, hroot, rfl⟩
  | array hk _ ih =>
    obtain ⟨root, dims, k, hroot, hk', hn⟩ := ih
    exact ⟨root, dims + 1, k, hroot, hk', nested?_arrayOf hn (h.idxOf?_array hk)⟩

/-- A type with brackets is named by its root and the brackets. -/
theorem name_nested (h : t.Distinct) {root : TypeId} {dims : Nat}
    (hn : t.nested? root dims = some id) :
    t.name id = t.name root ++ String.join (List.replicate dims "[]") := by
  induction dims generalizing id with
  | zero =>
    obtain rfl : root = id := Option.some.inj hn
    simp
  | succ dims ih =>
    obtain ⟨element, helement, hid⟩ := nested?_succ hn
    obtain ⟨hlt, hkind, _⟩ := List.idxOf?_eq_some_iff.mp hid
    have hk : t.kind? id = some (.array element) := by
      rw [kind?, List.getElem?_eq_getElem hlt, hkind]
    have hpart := h.interned.parts id _ hk element List.mem_cons_self
    rw [name_array hk hpart, ih helement, List.replicate_succ', String.join_append,
      String.append_assoc]
    rfl

end Distinct

/-! ## Taking brackets off a name -/

theorem splitBrackets_of_not_isPrefix {l : List Char} (h : ¬ [']', '['] <+: l) :
    splitBrackets l = (0, l) := by
  unfold splitBrackets
  split
  · next rest => exact absurd ⟨rest, rfl⟩ h
  · rfl

theorem spelling_brackets {base : String} (h : ¬ EndsInBrackets base) (dims : Nat) :
    spelling (base ++ String.join (List.replicate dims "[]")) = (base, dims) := by
  have hsplit : splitBrackets (base ++ String.join (List.replicate dims "[]")).toList.reverse =
      (dims, base.toList.reverse) := by
    induction dims with
    | zero =>
      have hfront : ¬ [']', '['] <+: base.toList.reverse := fun hp =>
        h (by simpa [EndsInBrackets] using List.reverse_suffix.mpr hp)
      simpa using splitBrackets_of_not_isPrefix hfront
    | succ dims ih =>
      have htext : (base ++ String.join (List.replicate (dims + 1) "[]")).toList.reverse =
          ']' :: '[' :: (base ++ String.join (List.replicate dims "[]")).toList.reverse := by
        rw [List.replicate_succ', String.join_append]
        simp
      rw [htext, splitBrackets, ih]
  rw [spelling, hsplit]
  simp

/-! ## Round trips -/

theorem mem_classes_of_kind? {ancestors : List TypeId}
    (h : t.kind? id = some (.classType name ancestors)) : (id, name) ∈ t.classes := by
  unfold classes
  refine List.mem_filterMap.mpr ⟨(.classType name ancestors, id), ?_, rfl⟩
  exact List.mem_zipIdx_iff_getElem?.mpr h

/-- A root with brackets is found by its name with brackets. -/
theorem Distinct.typeNamed_brackets (h : t.Distinct)
    (hplain : ∀ c ∈ t.classes, ¬ EndsInBrackets c.2) {root : TypeId} {k : TypeKind}
    (hk : t.kind? root = some k) (hroot : k.isRoot = true) {dims : Nat}
    (hnest : t.nest root dims = (id, t')) :
    t.typeNamed (t.name root ++ String.join (List.replicate dims "[]")) = .ok (id, t') := by
  have hname : ¬ EndsInBrackets (t.name root) := by
    rw [name_eq_text hk]
    cases k with
    | primitive q =>
      rw [TypeKind.text]
      cases q <;> decide
    | classType name ancestors => exact hplain _ (mem_classes_of_kind? hk)
    | array | method => cases hroot
  refine typeNamed_eq_ok.mpr ⟨root, ?_, ?_⟩
  · rw [spelling_brackets hname]
    exact h.spelledBase?_name hk hroot
  · rw [spelling_brackets hname]
    exact hnest

/-- In every table that requests lead to, and in which no class name ends in brackets: the name of
    a type that values can have leads back to its number, and a written type that is accepted is
    shown as it is written and can be asked for by its text instead, with the same number and the
    same table afterwards. -/
theorem type_names_round_trip {t : TypeTable} (h : initial.Leads t)
    (hplain : ∀ c ∈ t.classes, ¬ EndsInBrackets c.2) :
    (∀ id, t.IsValueType id → t.typeNamed (t.name id) = .ok (id, t)) ∧
    ∀ e id t', t.resolve e = .ok (id, t') →
      t'.name id = e.text ∧ t.typeNamed e.text = .ok (id, t') := by
  have hd := h.distinct
  refine ⟨fun id hid => ?_, fun e id t' hresolve => ?_⟩
  · obtain ⟨root, dims, k, hk, hroot, hn⟩ := hd.exists_root hid
    rw [hd.name_nested hn]
    exact hd.typeNamed_brackets hplain hk hroot (nest_of_nested? hn)
  · obtain ⟨root, hbase, hnest⟩ := resolve_eq_ok.mp hresolve
    obtain ⟨k, hk, hroot, hname⟩ := hd.exists_root_of_base? hbase
    -- the table that the type is shown in is one that requests lead to as well
    have hleads : initial.Leads (t.after (.written e)) := h.step (by simp [Admits,
      TypeRequest.mentioned])
    rw [after, answer, hresolve] at hleads
    have hbase' := ((extends_resolve hresolve).base?_eq e.base).trans hbase
    obtain ⟨_, _, _, hname'⟩ := hleads.distinct.exists_root_of_base? hbase'
    have hn : t'.nested? root e.dims = some id := by
      have hn := nested?_nest t root e.dims
      rwa [hnest] at hn
    refine ⟨?_, ?_⟩
    · rw [hleads.distinct.name_nested hn, hname', TypeExpr.text]
    · rw [TypeExpr.text, ← hname]
      exact hd.typeNamed_brackets hplain hk hroot hnest

/-- The names of `B[][]` in the sample table, and of `A[]`, which is entered when it is asked
    for. -/
theorem type_names_round_trip_sample :
    initial.Leads sample ∧ sample.name 8 = "B[][]" ∧ sample.typeNamed "B[][]" = .ok (8, sample) ∧
    (sample.arrayOf 5).1 = 10 ∧ (sample.arrayOf 5).2.name 10 = "A[]" ∧
    sample.typeNamed "A[]" = .ok (sample.arrayOf 5) := by
  have hfacts : sample.name 8 = "B[][]" ∧ (∀ c ∈ sample.classes, ¬ EndsInBrackets c.2) ∧
      sample.kind? 8 = some (.array 7) ∧ sample.kind? 7 = some (.array 6) ∧
      sample.kind? 6 = some (.classType "B" [5]) ∧ sample.base? (.named "A") = some 5 ∧
      (sample.arrayOf 5).1 = 10 := by
    decide +kernel
  obtain ⟨hname, hplain, h8, h7, h6, hbase, hten⟩ := hfacts
  obtain ⟨hback, hwritten⟩ := type_names_round_trip leads_sample hplain
  have hspelled := hback 8 (.array h8 (.array h7 (.root h6 rfl)))
  rw [hname] at hspelled
  have hresolve : sample.resolve ⟨.named "A", 1, Span.ofLine 1⟩ = .ok (sample.arrayOf 5) :=
    resolve_eq_ok.mpr ⟨5, hbase, rfl⟩
  obtain ⟨hshown, hasked⟩ := hwritten _ (sample.arrayOf 5).1 (sample.arrayOf 5).2 hresolve
  rw [hten] at hshown
  exact ⟨leads_sample, hname, hspelled, hten, hshown, hasked⟩

end TypeTable

end IcLir
