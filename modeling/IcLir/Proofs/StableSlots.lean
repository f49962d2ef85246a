import IcLir.Proofs.ClassLayouts

/-
  Layouts under any use. A layout may be passed on to subclasses and given fields and methods in
  any order, and names may come again with another kind (`LayoutChange`). Whatever is done, the
  slots are numbered without gaps (`Consistent`), and a method that has an entry keeps its slot;
  only its owner follows the class that declared it last (`owner_after`).
-/

namespace IcLir

/-- A use of a layout: it is passed on to a subclass, or a member is added. -/
inductive LayoutChange where
  | derive (type : TypeId) (name : String)
  | field (name : String)
  | method (name : String) (kind : MethodKind)
deriving DecidableEq, Repr

/-- The class that declares method `m` last, where the changes start in class `current`. -/
def LayoutChange.declarer? (m : String) : String → List LayoutChange → Option String
  | _, [] => none
  | _, .derive _ name :: changes => declarer? m name changes
  | current, .field _ :: changes => declarer? m current changes
  | current, .method name _ :: changes =>
    (declarer? m current changes).or (if name = m then some current else none)

namespace ClassLayout

open LayoutChange (declarer?)

def change (l : ClassLayout) : LayoutChange → ClassLayout
  | .derive type name => l.derive type name
  | .field name => l.addField name
  | .method name kind => l.addMethod name kind

def after (l : ClassLayout) (changes : List LayoutChange) : ClassLayout := changes.foldl change l

variable {l : ClassLayout}

/-! ## Slots and names -/

structure Consistent (l : ClassLayout) : Prop where
  slots : l.SlotsInOrder
  /-- An entry is kept under the name of its method. -/
  names : ∀ m e, l.method? m = some e → e.name = m

theorem consistent_root (type : TypeId) (name : String) : (root type name).Consistent where
  slots := slotsInOrder_root type name
  names _ _ h := by cases h

theorem Consistent.addMethod (h : l.Consistent) (name : String) (kind : MethodKind) :
    (l.addMethod name kind).Consistent := by
  refine ⟨h.slots.addMethod name kind, fun m e he => ?_⟩
  by_cases hm : m = name
  · subst hm
    cases hold : l.method? m with
    | none =>
      obtain ⟨slot, _, hnew⟩ := method?_addMethod_of_none l kind hold
      rw [← Option.some.inj (hnew.symm.trans he)]
    | some e₀ =>
      rw [← Option.some.inj ((method?_addMethod_of_some l kind hold).symm.trans he)]
      exact h.names m e₀ hold
  · rw [method?_addMethod_of_ne l kind hm] at he
    exact h.names m e he

theorem Consistent.change (h : l.Consistent) (c : LayoutChange) : (l.change c).Consistent := by
  cases c with
  | derive type name => exact ⟨h.slots, h.names⟩
  | field name => exact ⟨h.slots, h.names⟩
  | method name kind => exact h.addMethod name kind

theorem Consistent.after (h : l.Consistent) (changes : List LayoutChange) :
    (l.after changes).Consistent := by
  induction changes generalizing l with
  | nil => exact h
  | cons c changes ih => exact ih (h.change c)

/-! ## What a method keeps -/

theorem exists_slot_change (l : ClassLayout) (c : LayoutChange) {m : String} {e : MethodEntry}
    (he : l.method? m = some e) : ∃ e', (l.change c).method? m = some e' ∧ e'.slot = e.slot := by
  cases c with
  | derive type name => exact ⟨e, he, rfl⟩
  | field name => exact ⟨e, he, rfl⟩
  | method name kind => exact (inherits_addMethod l name kind).slot m e he

theorem exists_slot_after (changes : List LayoutChange) {m : String} {e : MethodEntry}
    (he : l.method? m = some e) :
    ∃ e', (l.after changes).method? m = some e' ∧ e'.slot = e.slot := by
  induction changes generalizing l e with
  | nil => exact ⟨e, he, rfl⟩
  | cons c changes ih =>
    obtain ⟨e₁, he₁, hslot₁⟩ := exists_slot_change l c he
    obtain ⟨e₂, he₂, hslot₂⟩ := ih he₁
    exact ⟨e₂, he₂, hslot₂.trans hslot₁⟩

theorem owner_addMethod (l : ClassLayout) (name m : String) (kind : MethodKind) :
    ((l.addMethod name kind).method? m).map (·.owner) =
      if name = m then some l.name else (l.method? m).map (·.owner) := by
  split
  · next hm =>
    subst hm
    cases hold : l.method? name with
    | none =>
      obtain ⟨slot, _, hnew⟩ := method?_addMethod_of_none l kind hold
      rw [hnew]
      rfl
    | some e =>
      rw [method?_addMethod_of_some l kind hold]
      rfl
  · next hm => rw [method?_addMethod_of_ne l kind (Ne.symm hm)]

/-- A method belongs to the class that declared it last. -/
theorem owner_after (changes : List LayoutChange) (m : String) :
    ((l.after changes).method? m).map (·.owner) =
      (declarer? m l.name changes).or ((l.method? m).map (·.owner)) := by
  induction changes generalizing l with
  | nil => rfl
  | cons c changes ih =>
    have hstep : ((l.after (c :: changes)).method? m).map (·.owner) =
        (declarer? m (l.change c).name changes).or (((l.change c).method? m).map (·.owner)) := ih
    rw [hstep]
    cases c with
    | derive type name => rfl
    | field name => rfl
    | method name kind =>
      rw [change, name_addMethod, owner_addMethod, declarer?, Option.or_assoc]
      split
      · rw [Option.some_or]
      · rw [Option.none_or]

theorem Consistent.label_after (h : l.Consistent) (hnew : ∀ m, l.method? m = none)
    (changes : List LayoutChange) (m : String) :
    ((l.after changes).method? m).map MethodEntry.label =
      (declarer? m l.name changes).map fun owner => s!"_{owner}_{m}" := by
  have howner := owner_after (l := l) changes m
  rw [hnew m, Option.map_none, Option.or_none] at howner
  rw [← howner, Option.map_map]
  cases he : (l.after changes).method? m with
  | none => rfl
  | some e =>
    have hname : e.name = m := (h.after changes).names m e he
    simp [MethodEntry.label, hname]

/-! ## The dispatch table -/

/-- However a layout came about, its slots are those below `nextSlot`, each of one method. A
    method that has an entry keeps its slot, whatever is done later. The dispatch table has one
    label for each slot, that of the class which declared the method of the slot last. -/
theorem dispatch_slots_are_stable (type : TypeId) (name : String) (changes : List LayoutChange) :
    let l := (root type name).after changes
    (∀ slot, slot < l.nextSlot ↔ ∃ m e, l.method? m = some e ∧ e.slot = some slot) ∧
      (∀ slot m m' e e', l.method? m = some e → l.method? m' = some e' → e.slot = some slot →
        e'.slot = some slot → m = m') ∧
      (∀ later m e, l.method? m = some e →
        ∃ e', (l.after later).method? m = some e' ∧ e'.slot = e.slot) ∧
      l.dispatchTable.length = l.nextSlot ∧
      (∀ slot m e, l.method? m = some e → e.slot = some slot →
        l.dispatchTable[slot]? = some e.label) ∧
      ∀ m, (l.method? m).map MethodEntry.label =
        (declarer? m name changes).map fun owner => s!"_{owner}_{m}" := by
  have hroot := consistent_root type name
  have h := hroot.after changes
  refine ⟨fun slot => OrderedMap.lt_iff_of_range h.slots, ?_, ?_, h.slots.length_dispatchTable,
    ?_, ?_⟩
  · intro slot m m' e e' he he' hslot hslot'
    exact OrderedMap.key_eq_of_range h.slots he he' hslot hslot'
  · intro later m e he
    exact exists_slot_after later he
  · intro slot m e he hslot
    exact h.slots.getElem?_dispatchTable he hslot
  · intro m
    exact hroot.label_after (fun _ => rfl) changes m

/-- A virtual method that is declared again as static stays in the table, and one that was static
    first never enters it. -/
example :
    let l := (root 5 "A").after [.method "f" .virtual, .method "g" .static, .method "h" .virtual,
      .derive 6 "B", .method "f" .static, .method "g" .virtual]
    l.dispatchTable = ["_B_f", "_A_h"] := by cbv

end ClassLayout

end IcLir
