import IcLir.ClassLayout
import Mathlib.Data.List.Basic

/-
  What the layout of a class says about its members. `Lays find owner l`: the fields with an
  offset and the methods with an entry are exactly those that `find` finds, an entry names the
  class that declares the method, and it has a slot exactly if the method is virtual. Adding a
  symbol keeps this up (`Lays.addSymbol`) and leaves every offset and slot where it is
  (`Inherits`). Slots are given out in order, so entry number `s` of a dispatch table is the
  method with slot `s`.
-/

namespace IcLir

namespace OrderedMap

variable {κ α β : Type} [DecidableEq κ] {m : OrderedMap κ α} {k k' : κ} {v v' : α}

theorem find?_of_mem {entries : List (κ × α)} (hn : (entries.map Prod.fst).Nodup)
    (h : (k, v) ∈ entries) : entries.find? (fun e => e.1 = k) = some (k, v) := by
  induction entries with
  | nil => simp at h
  | cons e es ih =>
    rw [List.map_cons, List.nodup_cons] at hn
    rcases List.mem_cons.mp h with rfl | h
    · simp
    · have hne : e.1 ≠ k := fun heq => hn.1 (heq ▸ List.mem_map_of_mem h)
      rw [List.find?_cons_of_neg (by simpa using hne)]
      exact ih hn.2 h

theorem get?_eq_some_iff : m.get? k = some v ↔ (k, v) ∈ m.entries := by
  unfold get?
  constructor
  · intro h
    obtain ⟨⟨k', v'⟩, hfind, rfl⟩ := Option.map_eq_some_iff.mp h
    have hk : k' = k := by simpa using List.find?_some hfind
    exact hk ▸ List.mem_of_find?_eq_some hfind
  · intro h
    rw [find?_of_mem m.nodup_keys h]
    rfl

theorem values_insert_of_none (h : m.get? k = none) : (m.insert k v).values = m.values ++ [v] := by
  have hk : k ∉ m.entries.map Prod.fst := (get?_eq_none_iff m k).mp h
  unfold insert values
  rw [dif_neg hk]
  simp

/-- Replacing a value by one that `f` treats alike. -/
theorem filterMap_values_insert {f : α → Option β} {w : α} (h : m.get? k = some v)
    (hf : f w = f v) : (m.insert k w).values.filterMap f = m.values.filterMap f := by
  have hmem := get?_eq_some_iff.mp h
  unfold insert values
  rw [dif_pos (List.mem_map_of_mem hmem)]
  change ((overwrite k w m.entries).map Prod.snd).filterMap f = _
  unfold overwrite
  rw [List.map_map, List.filterMap_map, List.filterMap_map]
  refine List.filterMap_congr fun e he => ?_
  change f (if e.1 = k then (k, w) else e).2 = f e.2
  -- the one entry with key `k` is the one that is replaced
  split
  · next hk =>
    have hfind := find?_of_mem m.nodup_keys (show (k, e.2) ∈ m.entries by rw [← hk]; exact he)
    rw [find?_of_mem m.nodup_keys hmem] at hfind
    rw [← (Prod.mk.inj (Option.some.inj hfind)).2]
    exact hf
  · rfl

theorem get?_eq_some_iff_getElem? :
    m.get? k = some v ↔ ∃ i : Nat, m.keys[i]? = some k ∧ m.values[i]? = some v := by
  rw [get?_eq_some_iff, List.mem_iff_getElem?]
  unfold keys values
  simp only [List.getElem?_map]
  constructor
  · intro h
    obtain ⟨i, hi⟩ := h
    exact ⟨i, by rw [hi]; rfl, by rw [hi]; rfl⟩
  · intro h
    obtain ⟨i, hk, hv⟩ := h
    refine ⟨i, ?_⟩
    cases he : m.entries[i]? with
    | none => rw [he] at hk; simp at hk
    | some e =>
      rw [he] at hk hv
      exact congrArg some (Prod.ext (Option.some.inj hk) (Option.some.inj hv))

omit [DecidableEq κ] in
/-- Two entries that `f` numbers alike are one, if no number is given twice. -/
theorem eq_of_nodup_filterMap {f : α → Option Nat} {entries : List (κ × α)} {e e' : κ × α} {i : Nat}
    (hn : (entries.filterMap fun e => f e.2).Nodup) (he : e ∈ entries) (he' : e' ∈ entries)
    (hi : f e.2 = some i) (hi' : f e'.2 = some i) : e = e' := by
  induction entries with
  | nil => simp at he
  | cons x entries ih =>
    rw [List.filterMap_cons] at hn
    have hother : ∀ y ∈ entries, f x.2 = some i → f y.2 ≠ some i := by
      intro y hy hx hyi
      rw [hx, List.nodup_cons] at hn
      exact hn.1 (List.mem_filterMap.mpr ⟨y, hy, hyi⟩)
    rcases List.mem_cons.mp he with rfl | hin
    · rcases List.mem_cons.mp he' with rfl | hin'
      · rfl
      · exact absurd hi' (hother e' hin' hi)
    · rcases List.mem_cons.mp he' with rfl | hin'
      · exact absurd hi (hother e hin hi')
      · refine ih ?_ hin hin'
        cases hx : f x.2 with
        | none => rw [hx] at hn; exact hn
        | some n => rw [hx] at hn; exact (List.nodup_cons.mp hn).2

section Numbered

variable {f : α → Option Nat} {n : Nat} (h : m.values.filterMap f = List.range n)

include h

theorem lt_iff_of_range {i : Nat} : i < n ↔ ∃ k v, m.get? k = some v ∧ f v = some i := by
  rw [← List.mem_range, ← h, List.mem_filterMap]
  constructor
  · intro hv
    obtain ⟨v, hv, hi⟩ := hv
    obtain ⟨e, he, rfl⟩ := List.mem_map.mp hv
    exact ⟨e.1, e.2, get?_eq_some_iff.mpr he, hi⟩
  · intro hv
    obtain ⟨k, v, hk, hi⟩ := hv
    exact ⟨v, List.mem_map_of_mem (f := Prod.snd) (get?_eq_some_iff.mp hk), hi⟩

theorem key_eq_of_range {i : Nat} (hk : m.get? k = some v) (hk' : m.get? k' = some v')
    (hi : f v = some i) (hi' : f v' = some i) : k = k' := by
  have hn : (m.entries.filterMap fun e => f e.2).Nodup := by
    have hvalues : m.values.filterMap f = m.entries.filterMap fun e => f e.2 := by
      unfold values
      rw [List.filterMap_map]
      rfl
    rw [← hvalues, h]
    exact List.nodup_range
  have heq := eq_of_nodup_filterMap hn (get?_eq_some_iff.mp hk) (get?_eq_some_iff.mp hk') hi hi'
  exact congrArg Prod.fst heq

end Numbered

end OrderedMap

namespace ClassLayout

variable {l : ClassLayout} {name : String}

/-! ## Slots -/

/-- Slots are given out in the order in which methods are first met. -/
def SlotsInOrder (l : ClassLayout) : Prop :=
  l.methods.values.filterMap (·.slot) = List.range l.nextSlot

theorem slotsInOrder_root (type : TypeId) (name : String) : (root type name).SlotsInOrder := rfl

theorem SlotsInOrder.addMethod (h : l.SlotsInOrder) (name : String) (kind : MethodKind) :
    (l.addMethod name kind).SlotsInOrder := by
  unfold SlotsInOrder at h ⊢
  unfold ClassLayout.addMethod
  cases hm : l.methods.get? name with
  | some e =>
    dsimp only
    rw [OrderedMap.filterMap_values_insert hm (by rfl)]
    exact h
  | none =>
    cases kind with
    | virtual =>
      dsimp only
      rw [OrderedMap.values_insert_of_none hm, List.filterMap_append, h, List.range_succ]
      rfl
    | static =>
      dsimp only
      rw [OrderedMap.values_insert_of_none hm, List.filterMap_append, h]
      simp
    | library =>
      dsimp only
      rw [OrderedMap.values_insert_of_none hm, List.filterMap_append, h]
      simp

theorem SlotsInOrder.addSymbol (h : l.SlotsInOrder) (s : Symbol) :
    (l.addSymbol s).SlotsInOrder := by
  unfold ClassLayout.addSymbol
  split
  · exact h
  · exact h.addMethod _ _
  all_goals exact h

/-- The methods that have a slot, as the dispatch table is made of them. -/
def slotted (l : ClassLayout) : List (Nat × String) :=
  l.methods.values.filterMap fun e => e.slot.map fun slot => (slot, e.label)

theorem SlotsInOrder.map_fst_slotted (h : l.SlotsInOrder) :
    l.slotted.map Prod.fst = List.range l.nextSlot := by
  rw [← h, slotted, List.map_filterMap]
  simp [Function.comp_def]

/-- There is nothing to sort. -/
theorem SlotsInOrder.dispatchTable_eq (h : l.SlotsInOrder) :
    l.dispatchTable = l.slotted.map Prod.snd := by
  have hsorted : l.slotted.mergeSort (fun a b => decide (a.1 ≤ b.1)) = l.slotted := by
    refine List.mergeSort_of_pairwise ?_
    have hpairs : (l.slotted.map Prod.fst).Pairwise (· < ·) :=
      h.map_fst_slotted ▸ List.pairwise_lt_range
    refine (List.pairwise_map.mp hpairs).imp fun hlt => ?_
    exact decide_eq_true (Nat.le_of_lt hlt)
  exact congrArg (List.map Prod.snd) hsorted

theorem SlotsInOrder.length_dispatchTable (h : l.SlotsInOrder) :
    l.dispatchTable.length = l.nextSlot := by
  have hlength := congrArg List.length h.map_fst_slotted
  rw [List.length_map, List.length_range] at hlength
  rw [h.dispatchTable_eq, List.length_map, hlength]

/-- A method with a slot is found under it in the dispatch table. -/
theorem SlotsInOrder.getElem?_dispatchTable (h : l.SlotsInOrder) {e : MethodEntry} {slot : Nat}
    (hm : l.method? name = some e) (hs : e.slot = some slot) :
    l.dispatchTable[slot]? = some e.label := by
  have hmem : (slot, e.label) ∈ l.slotted := by
    refine List.mem_filterMap.mpr ⟨e, ?_, by rw [hs]; rfl⟩
    exact List.mem_map_of_mem (f := Prod.snd) (OrderedMap.get?_eq_some_iff.mp hm)
  obtain ⟨i, hi⟩ := List.mem_iff_getElem?.mp hmem
  have hslot : (List.range l.nextSlot)[i]? = some slot := by
    rw [← h.map_fst_slotted, List.getElem?_map, hi]
    rfl
  obtain ⟨_, hslot⟩ := List.getElem?_eq_some_iff.mp hslot
  rw [List.getElem_range] at hslot
  rw [h.dispatchTable_eq, ← hslot, List.getElem?_map, hi]
  rfl

/-! ## Fields -/

/-- The name of a field. -/
def fieldName? (s : Symbol) : Option String :=
  if s.kind = .field then some s.name else none

/-- The fields of the layout are those of the list, with the offsets from 1 on. -/
structure FieldsInOrder (names : List String) (l : ClassLayout) : Prop where
  keys : l.fields.keys = names
  values : l.fields.values = List.range' 1 names.length

theorem fieldsInOrder_root (type : TypeId) (name : String) :
    (root type name).FieldsInOrder [] := ⟨rfl, rfl⟩

theorem fields_addMethod (l : ClassLayout) (name : String) (kind : MethodKind) :
    (l.addMethod name kind).fields = l.fields := by
  unfold addMethod
  split
  · rfl
  · cases kind <;> rfl

theorem FieldsInOrder.addField {names : List String} (h : l.FieldsInOrder names)
    (hnew : name ∉ names) : (l.addField name).FieldsInOrder (names ++ [name]) := by
  have hnone : l.fields.get? name = none := by
    rw [OrderedMap.get?_eq_none_iff, h.keys]
    exact hnew
  have hsize : l.nextOffset = 1 + names.length := by
    rw [nextOffset, OrderedMap.size_eq_length_keys, h.keys]
    omega
  constructor
  · have hkeys := OrderedMap.keys_insert l.fields name l.nextOffset
    rw [h.keys, if_neg hnew] at hkeys
    exact hkeys
  · have hvalues := OrderedMap.values_insert_of_none (v := l.nextOffset) hnone
    rw [h.values, hsize, ← List.range'_1_concat] at hvalues
    rw [List.length_append, List.length_singleton]
    rw [← hsize] at hvalues
    exact hvalues

theorem FieldsInOrder.foldl_addSymbol {names : List String} (h : l.FieldsInOrder names)
    {symbols : List Symbol} (hnodup : (symbols.map (·.name)).Nodup)
    (hnew : ∀ s ∈ symbols, s.kind = .field → s.name ∉ names) :
    (symbols.foldl ClassLayout.addSymbol l).FieldsInOrder
      (names ++ symbols.filterMap fieldName?) := by
  induction symbols generalizing l names with
  | nil => rw [List.filterMap_nil, List.append_nil]; exact h
  | cons s symbols ih =>
    rw [List.map_cons, List.nodup_cons] at hnodup
    have hrest : ∀ s' ∈ symbols, s'.kind = .field → s'.name ∉ names := fun s' hs' =>
      hnew s' (List.mem_cons_of_mem _ hs')
    rw [List.foldl_cons, List.filterMap_cons]
    cases hk : s.kind with
    | field =>
      have hadd : l.addSymbol s = l.addField s.name := by rw [ClassLayout.addSymbol, hk]
      have hname : fieldName? s = some s.name := if_pos hk
      rw [hadd, hname]
      have hstep := ih (h.addField (hnew s (by simp) hk)) hnodup.2 (by
        intro s' hs' hk' hmem
        rcases List.mem_append.mp hmem with hmem | hmem
        · exact hrest s' hs' hk' hmem
        · have heq : s'.name = s.name := by simpa using hmem
          exact hnodup.1 (heq ▸ List.mem_map_of_mem hs'))
      rw [List.append_assoc] at hstep
      exact hstep
    | method kind =>
      have hadd : l.addSymbol s = l.addMethod s.name kind := by rw [ClassLayout.addSymbol, hk]
      have hname : fieldName? s = none := if_neg (by simp [hk])
      rw [hadd, hname]
      refine ih ⟨?_, ?_⟩ hnodup.2 hrest
      · rw [fields_addMethod]; exact h.keys
      · rw [fields_addMethod]; exact h.values
    | _ =>
      have hadd : l.addSymbol s = l := by rw [ClassLayout.addSymbol, hk]
      have hname : fieldName? s = none := if_neg (by simp [hk])
      rw [hadd, hname]
      exact ih h hnodup.2 hrest

/-! ## What is inherited -/

/-- Every offset and slot of `l` is the same in `l'`. -/
structure Inherits (l l' : ClassLayout) : Prop where
  offset : ∀ name n, l.offset? name = some n → l'.offset? name = some n
  slot : ∀ name e, l.method? name = some e → ∃ e', l'.method? name = some e' ∧ e'.slot = e.slot

theorem Inherits.refl (l : ClassLayout) : Inherits l l :=
  ⟨fun _ _ h => h, fun _ e h => ⟨e, h, rfl⟩⟩

theorem Inherits.trans {l' l'' : ClassLayout} (h : Inherits l l') (h' : Inherits l' l'') :
    Inherits l l'' where
  offset name n hn := h'.offset name n (h.offset name n hn)
  slot name e he := by
    obtain ⟨e', he', hs⟩ := h.slot name e he
    obtain ⟨e'', he'', hs'⟩ := h'.slot name e' he'
    exact ⟨e'', he'', hs'.trans hs⟩

theorem inherits_addField (h : l.offset? name = none) : Inherits l (l.addField name) := by
  refine ⟨fun n k hn => ?_, fun _ e he => ⟨e, he, rfl⟩⟩
  have hne : n ≠ name := by
    rintro rfl
    rw [h] at hn
    simp at hn
  rw [offset?_addField_of_ne l hne]
  exact hn

theorem offset?_addMethod (l : ClassLayout) (name : String) (kind : MethodKind) (n : String) :
    (l.addMethod name kind).offset? n = l.offset? n := by
  unfold addMethod
  split
  · rfl
  · cases kind <;> rfl

theorem inherits_addMethod (l : ClassLayout) (name : String) (kind : MethodKind) :
    Inherits l (l.addMethod name kind) := by
  refine ⟨fun n k hn => (offset?_addMethod l name kind n).trans hn, fun n e he => ?_⟩
  by_cases hn : n = name
  · subst hn
    exact ⟨_, method?_addMethod_of_some l kind he, rfl⟩
  · exact ⟨e, (method?_addMethod_of_ne l kind hn).trans he, rfl⟩

theorem method?_addMethod_of_none (l : ClassLayout) (kind : MethodKind)
    (h : l.method? name = none) : ∃ slot, slot.isSome = !kind.isStatic ∧
      (l.addMethod name kind).method? name = some ⟨name, l.name, slot, kind⟩ := by
  have h : l.methods.get? name = none := h
  unfold addMethod
  rw [h]
  cases kind with
  | virtual => exact ⟨some l.nextSlot, rfl, OrderedMap.get?_insert_self ..⟩
  | static => exact ⟨none, rfl, OrderedMap.get?_insert_self ..⟩
  | library => exact ⟨none, rfl, OrderedMap.get?_insert_self ..⟩

theorem name_addMethod (l : ClassLayout) (name : String) (kind : MethodKind) :
    (l.addMethod name kind).name = l.name := by
  unfold addMethod
  split
  · rfl
  · cases kind <;> rfl

theorem name_addSymbol (l : ClassLayout) (s : Symbol) : (l.addSymbol s).name = l.name := by
  unfold addSymbol
  split
  · rfl
  · exact name_addMethod ..
  all_goals rfl

theorem name_foldl_addSymbol (symbols : List Symbol) (l : ClassLayout) :
    (symbols.foldl ClassLayout.addSymbol l).name = l.name := by
  induction symbols generalizing l with
  | nil => rfl
  | cons s symbols ih => exact (ih (l.addSymbol s)).trans (name_addSymbol l s)

/-! ## Fields and methods -/

/-- The layout holds the fields and methods that `find` finds; `owner` gives the class that
    declares a symbol. -/
structure Lays (find : String → Option Symbol) (owner : Symbol → Option String)
    (l : ClassLayout) : Prop where
  field : ∀ name s, find name = some s → s.kind = .field → ∃ n, l.offset? name = some n
  offset : ∀ name n, l.offset? name = some n → ∃ s, find name = some s ∧ s.kind = .field
  method : ∀ name s kind, find name = some s → s.kind = .method kind →
    ∃ e, l.method? name = some e ∧ e.name = name ∧ owner s = some e.owner ∧ e.kind = kind ∧
      e.slot.isSome = !kind.isStatic
  entry : ∀ name e, l.method? name = some e →
    ∃ s kind, find name = some s ∧ s.kind = .method kind

/-- A symbol may be declared: it is new, or a method that overrides a method. -/
def Declarable (find : String → Option Symbol) (s : Symbol) : Prop :=
  ∀ known, find s.name = some known → ∃ kind kind', s.kind = .method kind ∧
    known.kind = .method kind' ∧ kind'.isStatic = kind.isStatic

/-- What is found once `s` is declared. -/
def declaring (find : String → Option Symbol) (s : Symbol) (name : String) : Option Symbol :=
  if name = s.name then some s else find name

section

variable {find : String → Option Symbol} {owner : Symbol → Option String} {l : ClassLayout}
  {s : Symbol}

theorem Lays.offset?_eq_none (h : Lays find owner l) (hs : Declarable find s) :
    l.offset? s.name = none := by
  cases hn : l.offset? s.name with
  | none => rfl
  | some n =>
    obtain ⟨known, hfind, hk⟩ := h.offset s.name n hn
    obtain ⟨_, _, _, hk', _⟩ := hs known hfind
    rw [hk] at hk'
    simp at hk'

theorem Lays.addField (h : Lays find owner l) (hs : Declarable find s) (hk : s.kind = .field) :
    Lays (declaring find s) owner (l.addField s.name) := by
  have hnew : find s.name = none := by
    cases hfind : find s.name with
    | none => rfl
    | some known =>
      obtain ⟨_, _, hk', _⟩ := hs known hfind
      rw [hk] at hk'
      simp at hk'
  refine ⟨?_, ?_, ?_, ?_⟩
  · intro name s' hfind hk'
    by_cases hname : name = s.name
    · exact ⟨l.nextOffset, hname ▸ offset?_addField_self ..⟩
    · rw [declaring, if_neg hname] at hfind
      obtain ⟨n, hn⟩ := h.field name s' hfind hk'
      exact ⟨n, (offset?_addField_of_ne l hname).trans hn⟩
  · intro name n hn
    unfold declaring
    by_cases hname : name = s.name
    · exact ⟨s, if_pos hname, hk⟩
    · rw [if_neg hname]
      rw [offset?_addField_of_ne l hname] at hn
      exact h.offset name n hn
  · intro name s' kind hfind hk'
    by_cases hname : name = s.name
    · rw [declaring, if_pos hname] at hfind
      obtain rfl := Option.some.inj hfind
      rw [hk] at hk'
      simp at hk'
    · rw [declaring, if_neg hname] at hfind
      exact h.method name s' kind hfind hk'
  · intro name e he
    obtain ⟨s', kind, hfind, hk'⟩ := h.entry name e he
    refine ⟨s', kind, ?_, hk'⟩
    rw [declaring, if_neg ?_]
    · exact hfind
    · rintro rfl
      rw [hnew] at hfind
      simp at hfind

theorem Lays.addMethod (h : Lays find owner l) (hs : Declarable find s) {kind : MethodKind}
    (hk : s.kind = .method kind) (howner : owner s = some l.name) :
    Lays (declaring find s) owner (l.addMethod s.name kind) := by
  refine ⟨?_, ?_, ?_, ?_⟩
  · intro name s' hfind hk'
    rw [offset?_addMethod]
    by_cases hname : name = s.name
    · rw [declaring, if_pos hname] at hfind
      obtain rfl := Option.some.inj hfind
      rw [hk] at hk'
      simp at hk'
    · rw [declaring, if_neg hname] at hfind
      exact h.field name s' hfind hk'
  · intro name n hn
    rw [offset?_addMethod] at hn
    have hname : name ≠ s.name := by
      rintro rfl
      rw [h.offset?_eq_none hs] at hn
      simp at hn
    rw [declaring, if_neg hname]
    exact h.offset name n hn
  · intro name s' kind' hfind hk'
    by_cases hname : name = s.name
    · rw [declaring, if_pos hname] at hfind
      obtain rfl := Option.some.inj hfind
      obtain rfl : kind = kind' := SymbolKind.method.inj (hk.symm.trans hk')
      subst hname
      cases he : l.method? s.name with
      | none =>
        obtain ⟨slot, hslot, hm⟩ := method?_addMethod_of_none l kind he
        exact ⟨_, hm, rfl, howner, rfl, hslot⟩
      | some e =>
        obtain ⟨known, known', hfind, hknown⟩ := h.entry s.name e he
        obtain ⟨e', he', hname, _, _, hslot⟩ := h.method s.name known known' hfind hknown
        obtain rfl : e = e' := Option.some.inj (he.symm.trans he')
        obtain ⟨k, k', hsk, hknown', hstatic⟩ := hs known hfind
        obtain rfl : kind = k := SymbolKind.method.inj (hk.symm.trans hsk)
        obtain rfl : known' = k' := SymbolKind.method.inj (hknown.symm.trans hknown')
        exact ⟨_, method?_addMethod_of_some l kind he, hname, howner, rfl, hstatic ▸ hslot⟩
    · rw [declaring, if_neg hname] at hfind
      rw [method?_addMethod_of_ne l kind hname]
      exact h.method name s' kind' hfind hk'
  · intro name e he
    unfold declaring
    by_cases hname : name = s.name
    · exact ⟨s, kind, if_pos hname, hk⟩
    · rw [method?_addMethod_of_ne l kind hname] at he
      rw [if_neg hname]
      exact h.entry name e he

theorem Lays.addSymbol (h : Lays find owner l) (hs : Declarable find s)
    (hmember : s.kind.isMember = true) (howner : owner s = some l.name) :
    Lays (declaring find s) owner (l.addSymbol s) ∧ Inherits l (l.addSymbol s) := by
  unfold ClassLayout.addSymbol
  cases hk : s.kind with
  | field => exact ⟨h.addField hs hk, inherits_addField (h.offset?_eq_none hs)⟩
  | method kind => exact ⟨h.addMethod hs hk howner, inherits_addMethod ..⟩
  | className => rw [hk] at hmember; simp [SymbolKind.isMember] at hmember
  | parameter => rw [hk] at hmember; simp [SymbolKind.isMember] at hmember
  | localVar ordinal => rw [hk] at hmember; simp [SymbolKind.isMember] at hmember

/-- What a whole class adds to the layout that it starts from. -/
theorem Lays.foldl_addSymbol {symbols : List Symbol} (h : Lays find owner l)
    (hslots : l.SlotsInOrder) (hnodup : (symbols.map (·.name)).Nodup)
    (hs : ∀ s ∈ symbols, Declarable find s ∧ s.kind.isMember = true ∧ owner s = some l.name) :
    Lays (fun name => (symbols.find? (·.name = name)).or (find name)) owner
        (symbols.foldl ClassLayout.addSymbol l) ∧
      Inherits l (symbols.foldl ClassLayout.addSymbol l) ∧
      (symbols.foldl ClassLayout.addSymbol l).SlotsInOrder := by
  induction symbols generalizing l find with
  | nil => exact ⟨h, .refl l, hslots⟩
  | cons s symbols ih =>
    rw [List.map_cons, List.nodup_cons] at hnodup
    obtain ⟨hs₁, hmember, howner⟩ := hs s (by simp)
    obtain ⟨hlays, hinherits⟩ := h.addSymbol hs₁ hmember howner
    have hother : ∀ s' ∈ symbols, s'.name ≠ s.name := fun s' hs' heq =>
      hnodup.1 (heq ▸ List.mem_map_of_mem hs')
    obtain ⟨hlays', hinherits', hslots'⟩ := ih hlays (hslots.addSymbol s) hnodup.2 (by
      intro s' hs'
      obtain ⟨hdecl, hmember', howner'⟩ := hs s' (List.mem_cons_of_mem _ hs')
      refine ⟨fun known hknown => hdecl known ?_, hmember', ?_⟩
      · rw [declaring, if_neg (hother s' hs')] at hknown
        exact hknown
      · rw [name_addSymbol]
        exact howner')
    refine ⟨?_, hinherits.trans hinherits', hslots'⟩
    have hfind : (fun name => (symbols.find? (·.name = name)).or (declaring find s name)) =
        fun name => ((s :: symbols).find? (·.name = name)).or (find name) := by
      funext name
      unfold declaring
      by_cases hname : name = s.name
      · have hnone : symbols.find? (·.name = name) = none := by
          rw [List.find?_eq_none]
          intro s' hs'
          simpa [hname] using hother s' hs'
        rw [hnone, if_pos hname, List.find?_cons_of_pos (by simp [hname])]
        rfl
      · rw [if_neg hname, List.find?_cons_of_neg (by simpa using fun heq => hname heq.symm)]
    rw [← hfind]
    exact hlays'

end

theorem lays_root (owner : Symbol → Option String) (type : TypeId) (name : String) :
    Lays (fun _ => none) owner (root type name) where
  field := by simp
  offset _ _ h := by cases h
  method := by simp
  entry _ _ h := by cases h

end ClassLayout

end IcLir
