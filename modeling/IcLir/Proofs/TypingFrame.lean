import IcLir.Proofs.CheckEffects
import IcLir.Proofs.CompileOutcome

/-
  What the typing stage leaves alone. Whether it ends or stops, a context differs from the one
  before in array types at the end of the type table and in what was recorded about expressions
  (`Context.OnlyAdds`). After the definition stage of a fresh context it records a type for
  exactly the expressions in the bodies that are looked at, and a reference for exactly the bare
  names among them. Both are read off the changes that a check makes, one at a time.
-/

namespace IcLir

/-- `c'` is `c` with more array types, and with other entries for expressions and references. -/
structure Context.OnlyAdds (c c' : Context) : Prop where
  types : c.types.AddsArrays c'.types
  classIndex : ∀ name, c'.types.class? name = c.types.class? name
  signatureIndex : ∀ s, c'.types.kinds.idxOf? (.method s) = c.types.kinds.idxOf? (.method s)
  scopes : c'.scopes = c.scopes
  declarations : c'.declarations = c.declarations
  entry : c'.entry = c.entry
  layouts : c'.layouts = c.layouts
  options : c'.options = c.options

namespace Typing

variable {resolves : String → Nat → Resolution → Prop} {e : Effect} {es : List Effect}
  {t t' : Typing}

/-! ## One change -/

theorem Effect.Changes.addsArrays (h : e.Changes resolves t t') :
    t.types.AddsArrays t'.types := by
  cases e with
  | resolve e =>
    obtain ⟨id, types, hr, rfl⟩ := h
    exact TypeTable.addsArrays_resolve hr
  | array =>
    obtain ⟨element, _, rfl⟩ := h
    exact TypeTable.addsArrays_arrayOf t.types element
  | record id =>
    obtain ⟨_, rfl⟩ := h
    exact .refl _
  | refer id name =>
    obtain ⟨_, _, rfl⟩ := h
    exact .refl _
  | view =>
    obtain ⟨_, rfl⟩ := h
    exact .refl _

theorem isSome_get?_insert {α : Type} (m : OrderedMap NodeId α) (k : NodeId) (v : α)
    (id : NodeId) :
    ((m.insert k v).get? id).isSome = true ↔ (m.get? id).isSome = true ∨ id = k := by
  rw [OrderedMap.get?_insert]
  by_cases hid : id = k <;> simp [hid]

/-- Only the record of a type enters a node among the types, and only what a name stands for
    enters one among the references. -/
theorem Effect.Changes.isSome_iff (h : e.Changes resolves t t') (id : NodeId) :
    ((t'.exprTypes.get? id).isSome = true ↔
      (t.exprTypes.get? id).isSome = true ∨ .record id = e) ∧
    ((t'.references.get? id).isSome = true ↔
      (t.references.get? id).isSome = true ∨ ∃ name, .refer id name = e) := by
  cases e with
  | resolve e =>
    obtain ⟨_, _, _, rfl⟩ := h
    simp
  | array =>
    obtain ⟨_, _, rfl⟩ := h
    simp
  | record k =>
    obtain ⟨type, rfl⟩ := h
    simp [isSome_get?_insert]
  | refer k name =>
    obtain ⟨r, _, rfl⟩ := h
    simp [isSome_get?_insert]
  | view =>
    obtain ⟨_, rfl⟩ := h
    simp

/-! ## A whole run -/

theorem Follows.addsArrays (h : Follows resolves es t t') : t.types.AddsArrays t'.types :=
  h.rel (R := fun t t' => t.types.AddsArrays t'.types) (fun t => .refl t.types)
    (fun _ _ _ hu hv => hu.trans hv) fun _ _ _ _ hchange => hchange.addsArrays

theorem Follows.onlyAdds (h : Follows resolves es t t') : t.toContext.OnlyAdds t'.toContext where
  types := h.addsArrays
  classIndex := h.addsArrays.toExtends.class?_eq
  signatureIndex := h.addsArrays.idxOf?_method
  scopes := by rw [h.toContext_eq]; rfl
  declarations := by rw [h.toContext_eq]; rfl
  entry := by rw [h.toContext_eq]; rfl
  layouts := by rw [h.toContext_eq]; rfl
  options := by rw [h.toContext_eq]; rfl

theorem Follows.isSome_iff (h : Follows resolves es t t') (id : NodeId) :
    ((t'.exprTypes.get? id).isSome = true ↔
      (t.exprTypes.get? id).isSome = true ∨ .record id ∈ es) ∧
    ((t'.references.get? id).isSome = true ↔
      (t.references.get? id).isSome = true ∨ ∃ name, .refer id name ∈ es) := by
  induction h with
  | nil => simp
  | cons hchange _ ih =>
    rw [ih.1, ih.2, (hchange.isSome_iff id).1, (hchange.isSome_iff id).2]
    simp only [List.mem_cons, exists_or, or_assoc, and_self]

theorem record_mem_programEffects {p : Program} {id : NodeId} :
    .record id ∈ programEffects p ↔ ∃ m ∈ p.bodies, ∃ e ∈ Stmt.exprsOfList m.body, e.id = id := by
  simp [programEffects, Expr.record_mem_effects]

theorem refer_mem_programEffects {p : Program} {id : NodeId} :
    (∃ name, .refer id name ∈ programEffects p) ↔
      ∃ m ∈ p.bodies, ∃ node name, .var node name ∈ Stmt.exprsOfList m.body ∧ node.id = id := by
  simp only [programEffects, List.mem_flatMap, List.mem_cons, reduceCtorEq, false_or]
  constructor
  · rintro ⟨name, m, hm, e, he, hmem⟩
    obtain ⟨node, x, rfl, rfl, rfl⟩ := Expr.refer_mem_effects.mp hmem
    exact ⟨m, hm, node, x, he, rfl⟩
  · rintro ⟨m, hm, node, x, he, rfl⟩
    exact ⟨x.name, m, hm, _, he, Expr.refer_mem_effects.mpr ⟨node, x, rfl, rfl, rfl⟩⟩

end Typing

open Typing

/-- A check that ends has recorded what its effects say, and nothing else. -/
theorem isSome_iff_of_check {p : Program} {c c' : Context} (h : Context.check p c = .ok () c')
    (id : NodeId) :
    ((c'.exprTypes.get? id).isSome = true ↔
      (c.exprTypes.get? id).isSome = true ∨ .record id ∈ programEffects p) ∧
    ((c'.references.get? id).isSome = true ↔
      (c.references.get? id).isSome = true ∨ ∃ name, .refer id name ∈ programEffects p) := by
  obtain ⟨t, ht, rfl⟩ := check_eq_ok_iff.mp h
  have hmade := (makes_checkProgram p).made c.typing
  rw [ht] at hmade
  obtain ⟨l, hl, hes, hfollows⟩ := hmade
  have hmem : ∀ e, e ≠ .view → (e ∈ programEffects p ↔ e ∈ l) := fun e hview =>
    ⟨fun he => (hes e he).resolve_right hview, hl e⟩
  rw [hmem _ (by simp), exists_congr fun name => hmem (.refer id name) (by simp)]
  exact hfollows.isSome_iff id

theorem typing_only_adds (p : Program) :
    (∀ c c', (Context.check p c = .ok () c' ∨ ∃ e, Context.check p c = .error e c') →
      c.OnlyAdds c') ∧
    ∀ options c c', Context.define p (.initial options) = .ok () c →
      Context.check p c = .ok () c' → ∀ id,
        ((c'.exprTypes.get? id).isSome = true ↔
          ∃ m ∈ p.bodies, ∃ e ∈ Stmt.exprsOfList m.body, e.id = id) ∧
        ((c'.references.get? id).isSome = true ↔
          ∃ m ∈ p.bodies, ∃ node name,
            .var node name ∈ Stmt.exprsOfList m.body ∧ node.id = id) := by
  constructor
  · intro c c' h
    have hmade := (makes_checkProgram p).made c.typing
    unfold Context.check at h
    cases ht : checkProgram p c.typing with
    | ok _ t =>
      rw [ht] at h hmade
      obtain rfl : t.toContext = c' := by simpa using h
      obtain ⟨l, _, _, hfollows⟩ := hmade
      exact hfollows.onlyAdds
    | error e t =>
      rw [ht] at h hmade
      obtain rfl : t.toContext = c' := by simpa using h
      obtain ⟨l, _, hfollows⟩ := hmade
      exact hfollows.onlyAdds
  · intro options c c' hdefine hcheck id
    -- the definition stage leaves both tables as empty as it found them
    obtain ⟨_, _, _, hc⟩ := define_eq_ok_iff.mp hdefine
    have htypes : (c.exprTypes.get? id).isSome = false := by rw [hc]; rfl
    have hreferences : (c.references.get? id).isSome = false := by rw [hc]; rfl
    obtain ⟨htype, hreference⟩ := isSome_iff_of_check hcheck id
    rw [htype, hreference, htypes, hreferences, record_mem_programEffects,
      refer_mem_programEffects]
    simp

/-- The stage stops at once if the definition stage has not run, and ends if it has. -/
theorem typing_only_adds_shapes :
    (∃ e c, Context.check Shapes.program (.initial {}) = .error e c ∧
      (Context.initial {}).OnlyAdds c) ∧
    ∃ c c', Context.define Shapes.program (.initial {}) = .ok () c ∧
      Context.check Shapes.program c = .ok () c' ∧ c.OnlyAdds c' ∧
      (c'.exprTypes.get? 28).isSome = true ∧ (c'.references.get? 28).isSome = true ∧
      ¬(c'.exprTypes.get? 30).isSome = true := by
  constructor
  · obtain ⟨e, c, h⟩ : ∃ e c, Context.check Shapes.program (.initial {}) = .error e c :=
      ⟨_, _, rfl⟩
    exact ⟨e, c, h, (typing_only_adds Shapes.program).1 _ c (.inr ⟨e, h⟩)⟩
  · obtain ⟨c, c', hdefine, hcheck, _⟩ := exists_stages_of_analyzed Shapes.analyzed_program
    obtain ⟨hadds, hcover⟩ := typing_only_adds Shapes.program
    have hcover := hcover {} c c' hdefine hcheck
    refine ⟨c, c', hdefine, hcheck, hadds c c' (.inl hcheck), (hcover 28).1.mpr (by decide),
      (hcover 28).2.mpr ?_, fun h => absurd ((hcover 30).1.mp h) (by decide)⟩
    exact ⟨Shapes.main, List.mem_of_getElem? (i := 3) rfl, Shapes.node 28, Shapes.name "s",
      List.mem_of_getElem? (i := 6) rfl, rfl⟩

end IcLir
