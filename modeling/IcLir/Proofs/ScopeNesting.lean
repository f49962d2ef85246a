import IcLir.Proofs.ScopeExtension
import Mathlib.Logic.Relation

/-
  How scopes lie inside each other. The scope tree is changed in four ways only (`Edit`), all of
  which keep the scopes nested (`Nested`): around a scope lie its parent and what lies around
  that, and no method is around a class. A static method is passed on the way out before any
  class is, so that no lookup from inside it reaches a member of a class
  (`Nested.not_isClass_of_lookupVisible`).
-/

namespace IcLir

namespace ScopeTree

/-! ## Edits -/

/-- What the definition stage does to the tree in one step: it opens a scope inside one that is
    there, or declares a name. -/
inductive Edit : ScopeTree → ScopeTree → Prop where
  | openClass {t : ScopeTree} (type : TypeId) (name : String) (superclass : Option TypeId) :
    Edit t (t.addClassScope type name superclass).2
  | openMethod {t : ScopeTree} {parent : ScopeId} (node : NodeId) (name : String)
      (isStatic : Bool) (result : TypeId) :
    parent < t.size → Edit t (t.addMethodScope parent node name isStatic result).2
  | openBlock {t : ScopeTree} {parent : ScopeId} (node : NodeId) :
    parent < t.size → Edit t (t.addBlockScope parent node).2
  | declare {t t' : ScopeTree} {id : ScopeId} {name : String} {kind : SymbolKind} {type : TypeId}
      {span : Span} :
    id < t.size → t.insert id name kind type span = .ok t' → Edit t t'

/-- `t'` is `t` after some edits. -/
def Builds : ScopeTree → ScopeTree → Prop := Relation.ReflTransGen Edit

theorem Builds.trans {t t' t'' : ScopeTree} (h : Builds t t') (h' : Builds t' t'') :
    Builds t t'' := Relation.ReflTransGen.trans h h'

theorem Edit.extends {t t' : ScopeTree} (h : Edit t t') : t.Extends t' := by
  cases h with
  | openClass | openMethod | openBlock => exact (extends_addScope t _ _ _).of_scopes_eq rfl
  | declare hid hinsert => exact extends_insert hinsert hid

theorem Builds.extends {t t' : ScopeTree} (h : Builds t t') : t.Extends t' := by
  induction h with
  | refl => exact .refl t
  | tail _ hedit ih => exact ih.trans hedit.extends

theorem Builds.size_le {t t' : ScopeTree} (h : Builds t t') : t.size ≤ t'.size := h.extends.size_le

/-! ## Nested scopes -/

structure Nested (t : ScopeTree) : Prop where
  nonempty : 0 < t.size
  isGlobal : (t.scope global).kind = .global
  /-- Around a scope lie its parent and what lies around that. -/
  enclosing : ∀ id, (t.scope id).enclosing = [] ∨
    ∃ parent < id, (t.scope id).enclosing = t.path parent
  /-- No method lies around a class. -/
  classes : ∀ id, (t.scope id).kind.isClass = true →
    ∀ j ∈ (t.scope id).enclosing, (t.scope j).kind.isMethod = false
  classScopes : ∀ type id, t.classScopes.get? type = some id →
    id < t.size ∧ (t.scope id).kind.isClass = true
  /-- A symbol knows the scope that declares it. -/
  symbols : ∀ id name s, (t.scope id).get? name = some s → s.scope = id

namespace Nested

variable {t : ScopeTree}

variable {t' : ScopeTree} {j id m : ScopeId} {name : String}

theorem lt_of_mem_enclosing (h : t.Nested) (id : ScopeId) (hj : j ∈ (t.scope id).enclosing) :
    j < id := by
  induction id using Nat.strongRecOn with
  | _ id ih =>
    rcases h.enclosing id with hnone | ⟨parent, hlt, hpath⟩
    · rw [hnone] at hj
      exact absurd hj List.not_mem_nil
    · rw [hpath, path] at hj
      rcases List.mem_cons.mp hj with rfl | hj
      · exact hlt
      · exact Nat.lt_trans (ih parent hlt hj) hlt

theorem path_global (h : t.Nested) : t.path global = [global] := by
  have hnone : (t.scope global).enclosing = [] := List.eq_nil_iff_forall_not_mem.mpr fun j hj =>
    absurd (h.lt_of_mem_enclosing global hj) (Nat.not_lt_zero j)
  rw [path, hnone]

theorem initial : ScopeTree.initial.Nested where
  nonempty := by decide
  isGlobal := rfl
  enclosing id := by
    cases id with
    | zero => exact .inl rfl
    | succ => exact .inl rfl
  classes id hclass := by
    cases id with
    | zero => cases hclass
    | succ => cases hclass
  classScopes type id hget := by cases hget
  symbols id name s hget := by
    cases id with
    | zero => cases hget
    | succ => cases hget

/-- A new scope keeps the nesting, if it is no class or is put where no method is around it. -/
theorem addScope (h : t.Nested) {parent : ScopeId} (hp : parent < t.size) (kind : ScopeKind)
    (hclass : kind.isClass = true → ∀ j ∈ t.path parent, (t.scope j).kind.isMethod = false)
    (name : String) : (t.addScope parent kind name).2.Nested := by
  have hext := extends_addScope t parent kind name
  have hself := scope_addScope_self t parent kind name
  have hsize := size_addScope t parent kind name
  -- a number beyond the tree stands for a scope with nothing in it and nothing around it
  have hbeyond {id : ScopeId} (hid : t.size < id) :
      (t.addScope parent kind name).2.scope id = default := scope_of_size_le _ (by omega)
  refine ⟨by omega, ?_, ?_, ?_, ?_, ?_⟩
  · rw [hext.kind global h.nonempty]
    exact h.isGlobal
  · intro id
    rcases Nat.lt_trichotomy id t.size with hid | rfl | hid
    · rw [hext.enclosing id hid]
      refine (h.enclosing id).imp_right ?_
      rintro ⟨parent', hlt, hpath⟩
      exact ⟨parent', hlt, hpath.trans (hext.path_eq (Nat.lt_trans hlt hid)).symm⟩
    · exact .inr ⟨parent, hp, by rw [hself, hext.path_eq hp]⟩
    · exact .inl (by rw [hbeyond hid]; rfl)
  · intro id hkind j hj
    rcases Nat.lt_trichotomy id t.size with hid | rfl | hid
    · rw [hext.kind id hid] at hkind
      rw [hext.enclosing id hid] at hj
      rw [hext.kind j (Nat.lt_trans (h.lt_of_mem_enclosing id hj) hid)]
      exact h.classes id hkind j hj
    · rw [hself] at hkind hj
      have hlt : j < t.size := by
        rcases List.mem_cons.mp hj with rfl | hj
        · exact hp
        · exact Nat.lt_trans (h.lt_of_mem_enclosing parent hj) hp
      rw [hext.kind j hlt]
      exact hclass hkind j hj
    · rw [hbeyond hid] at hj
      exact absurd hj List.not_mem_nil
  · intro type id hget
    obtain ⟨hlt, hkind⟩ := h.classScopes type id hget
    exact ⟨Nat.lt_of_lt_of_le hlt hext.size_le, by rw [hext.kind id hlt]; exact hkind⟩
  · intro id other s hget
    rcases Nat.lt_trichotomy id t.size with hid | rfl | hid
    · rw [scope_addScope_of_lt t parent kind name hid] at hget
      exact h.symbols id other s hget
    · rw [hself] at hget
      cases hget
    · rw [hbeyond hid] at hget
      cases hget

/-- Around the scope of a superclass, and so around a new class, there are no methods. -/
theorem superclassScope (h : t.Nested) (superclass : Option TypeId) :
    (superclass.bind t.classScopes.get?).getD global < t.size ∧
      ∀ j ∈ t.path ((superclass.bind t.classScopes.get?).getD global),
        (t.scope j).kind.isMethod = false := by
  cases hbase : superclass.bind t.classScopes.get? with
  | none =>
    refine ⟨h.nonempty, fun j hj => ?_⟩
    rw [Option.getD_none, h.path_global, List.mem_singleton] at hj
    rw [hj, h.isGlobal]
    rfl
  | some base =>
    obtain ⟨superId, _, hget⟩ := Option.bind_eq_some_iff.mp hbase
    obtain ⟨hlt, hkind⟩ := h.classScopes superId base hget
    refine ⟨hlt, fun j hj => ?_⟩
    rcases List.mem_cons.mp hj with rfl | hj
    · cases hscope : (t.scope j).kind <;> simp_all [ScopeKind.isClass, ScopeKind.isMethod]
    · exact h.classes base hkind j hj

theorem addClassScope (h : t.Nested) (type : TypeId) (name : String)
    (superclass : Option TypeId) : (t.addClassScope type name superclass).2.Nested := by
  have hparent := h.superclassScope superclass
  have hopen := h.addScope hparent.1 (.classScope type) (fun _ => hparent.2) name
  refine ⟨hopen.nonempty, hopen.isGlobal, hopen.enclosing, hopen.classes, ?_, hopen.symbols⟩
  intro other id hget
  by_cases hother : other = type
  · subst hother
    obtain rfl : t.size = id :=
      Option.some.inj ((OrderedMap.get?_insert_self ..).symm.trans hget)
    refine ⟨?_, ?_⟩
    · exact Nat.lt_of_lt_of_eq (Nat.lt_succ_self _) (size_addScope t _ _ _).symm
    · exact congrArg (·.kind.isClass) (scope_addScope_self t _ (.classScope other) name)
  · exact hopen.classScopes other id ((OrderedMap.get?_insert_of_ne _ _ hother).symm.trans hget)

theorem insert (h : t.Nested) (hid : id < t.size) {kind : SymbolKind} {type : TypeId} {span : Span}
    (hinsert : t.insert id name kind type span = .ok t') : t'.Nested := by
  have hkind (j : ScopeId) : (t'.scope j).kind = (t.scope j).kind := by
    by_cases hj : j = id
    · rw [hj, scope_insert_self hinsert hid]
    · rw [scope_insert_of_ne hinsert hj]
  have henclosing (j : ScopeId) : (t'.scope j).enclosing = (t.scope j).enclosing := by
    by_cases hj : j = id
    · rw [hj, scope_insert_self hinsert hid]
    · rw [scope_insert_of_ne hinsert hj]
  refine ⟨?_, ?_, ?_, ?_, ?_, ?_⟩
  · rw [size_insert hinsert]
    exact h.nonempty
  · rw [hkind]
    exact h.isGlobal
  · intro j
    simp only [path, henclosing]
    exact h.enclosing j
  · intro j hclass k hk
    rw [hkind] at hclass
    rw [henclosing] at hk
    rw [hkind]
    exact h.classes j hclass k hk
  · intro type j hget
    rw [classScopes_insert hinsert] at hget
    rw [size_insert hinsert, hkind]
    exact h.classScopes type j hget
  · intro j other s hget
    by_cases hj : j = id
    · subst hj
      rw [get?_insert hinsert hid] at hget
      split at hget
      · exact (congrArg Symbol.scope (Option.some.inj hget)).symm
      · exact h.symbols j other s hget
    · rw [scope_insert_of_ne hinsert hj] at hget
      exact h.symbols j other s hget

theorem edit (h : t.Nested) (hedit : Edit t t') : t'.Nested := by
  cases hedit with
  | openClass type name superclass => exact h.addClassScope type name superclass
  | openMethod node name isStatic result hp =>
    have hopen := h.addScope hp (.method isStatic result) (fun hclass => by cases hclass) name
    exact ⟨hopen.nonempty, hopen.isGlobal, hopen.enclosing, hopen.classes, hopen.classScopes,
      hopen.symbols⟩
  | @openBlock parent node hp =>
    have hopen := h.addScope hp .block (fun hclass => by cases hclass)
      ("statement block in " ++ (t.scope parent).name)
    exact ⟨hopen.nonempty, hopen.isGlobal, hopen.enclosing, hopen.classes, hopen.classScopes,
      hopen.symbols⟩
  | declare hid hinsert => exact h.insert hid hinsert

theorem builds (h : t.Nested) (hbuilds : Builds t t') : t'.Nested := by
  induction hbuilds with
  | refl => exact h
  | tail _ hedit ih => exact ih.edit hedit

/-! ## Lookups from inside a static method -/

/-- On the way out to a static method there are no classes, and behind it is only the global
    scope. -/
theorem not_isClass_of_mem_outward (h : t.Nested) (hstatic : (t.scope m).kind.isStaticMethod = true)
    (id : ScopeId) (hm : m ∈ t.path id) (hj : j ∈ t.outward (t.path id)) :
    (t.scope j).kind.isClass = false := by
  induction id using Nat.strongRecOn with
  | _ id ih =>
    rw [path, outward] at hj
    split at hj
    · next hid =>
      rcases List.mem_cons.mp hj with rfl | hj
      · cases hkind : (t.scope j).kind <;> simp_all [ScopeKind.isStaticMethod, ScopeKind.isClass]
      · rw [List.mem_singleton.mp hj, h.isGlobal]
        rfl
    · next hid =>
      have hm' : m ∈ (t.scope id).enclosing := by
        refine (List.mem_cons.mp hm).resolve_left ?_
        rintro rfl
        exact hid hstatic
      rcases List.mem_cons.mp hj with rfl | hj
      · -- a class would have the method around it
        refine Bool.eq_false_iff.mpr fun hclass => ?_
        have hmethod := h.classes j hclass m hm'
        cases hkind : (t.scope m).kind <;> simp_all [ScopeKind.isStaticMethod, ScopeKind.isMethod]
      · rcases h.enclosing id with hnone | ⟨parent, hlt, hpath⟩
        · rw [hnone] at hm'
          exact absurd hm' List.not_mem_nil
        · rw [hpath] at hm' hj
          exact ih parent hlt hm' hj

/-- What is found is a symbol of its scope, which is no class. -/
theorem not_isClass_of_lookupVisible (h : t.Nested) (hm : m ∈ t.path id)
    (hstatic : (t.scope m).kind.isStaticMethod = true) {visible : Nat} {s : Symbol}
    (hs : t.lookupVisible id name visible = some s) :
    (t.scope s.scope).get? name = some s ∧ (t.scope s.scope).kind.isClass = false := by
  obtain ⟨j, hj, hfilter⟩ := List.exists_of_findSome?_eq_some hs
  obtain ⟨hget, _⟩ := Option.filter_eq_some_iff.mp hfilter
  rw [h.symbols j name s hget]
  exact ⟨hget, h.not_isClass_of_mem_outward hstatic id hm hj⟩

end Nested

end ScopeTree

end IcLir
