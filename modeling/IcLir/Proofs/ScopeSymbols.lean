import IcLir.Proofs.ScopeExtension
import IcLir.Proofs.TypeExtension

/-
  Which symbols stand in which scopes: class names in the global scope, fields and methods in
  class scopes, variables in the scopes of methods and blocks. Every symbol knows its name and
  its scope.
-/

namespace IcLir

/-- The sort of symbols that a scope holds. -/
def ScopeKind.Admits : ScopeKind → SymbolKind → Prop
  | .global, k => k = .className
  | .classScope _, k => k.isMember = true
  | .method .., k => k.isVariable = true
  | .block, k => k.isVariable = true

namespace ScopeTree

variable {id : ScopeId} {name : String}

structure SymbolFits (t : ScopeTree) (id : ScopeId) (name : String) (s : Symbol) : Prop where
  name_eq : s.name = name
  scope_eq : s.scope = id
  kind : (t.scope id).kind.Admits s.kind

def SymbolsFit (t : ScopeTree) : Prop :=
  ∀ id name s, (t.scope id).get? name = some s → SymbolFits t id name s

variable {t t' : ScopeTree}

theorem get?_default (name : String) : (default : Scope).get? name = none := rfl

theorem SymbolsFit.addScope (h : SymbolsFit t) (parent : ScopeId) (kind : ScopeKind)
    (name : String) : SymbolsFit (t.addScope parent kind name).2 := by
  intro id n s hs
  rcases Nat.lt_trichotomy id t.size with hid | rfl | hid
  · rw [scope_addScope_of_lt t parent kind name hid] at hs
    obtain ⟨hn, hscope, hk⟩ := h id n s hs
    refine ⟨hn, hscope, ?_⟩
    rw [scope_addScope_of_lt t parent kind name hid]
    exact hk
  · rw [scope_addScope_self] at hs
    have hnone : (OrderedMap.empty : OrderedMap String Symbol).get? n = some s := hs
    rw [OrderedMap.get?_empty] at hnone
    simp at hnone
  · rw [scope_of_size_le _ (by rw [size_addScope]; exact hid), get?_default] at hs
    simp at hs

/-- The invariant speaks of the scopes only, not of the tables beside them. -/
theorem SymbolsFit.of_scopes_eq (h : SymbolsFit t) (ht : t'.scopes = t.scopes) :
    SymbolsFit t' := by
  have hscope : ∀ id, t'.scope id = t.scope id := by
    intro id
    simp only [scope, scope?, ht]
  intro id name s hs
  rw [hscope] at hs
  obtain ⟨hn, hs', hk⟩ := h id name s hs
  exact ⟨hn, hs', by rw [hscope]; exact hk⟩

theorem SymbolsFit.insert (h : SymbolsFit t) {kind : SymbolKind} {type : TypeId} {span : Span}
    (hi : t.insert id name kind type span = .ok t') (hid : id < t.size)
    (hkind : (t.scope id).kind.Admits kind) : SymbolsFit t' := by
  intro j n s hs
  by_cases hj : j = id
  · subst hj
    have hk : (t'.scope j).kind = (t.scope j).kind := (extends_insert hi hid).kind j hid
    rw [get?_insert hi hid] at hs
    by_cases hn : n = name
    · rw [if_pos hn] at hs
      obtain rfl := Option.some.inj hs
      exact ⟨hn.symm, rfl, by rw [hk]; exact hkind⟩
    · rw [if_neg hn] at hs
      obtain ⟨hname, hscope, hkind'⟩ := h j n s hs
      exact ⟨hname, hscope, by rw [hk]; exact hkind'⟩
  · rw [scope_insert_of_ne hi hj] at hs
    obtain ⟨hname, hscope, hkind'⟩ := h j n s hs
    exact ⟨hname, hscope, by rw [scope_insert_of_ne hi hj]; exact hkind'⟩

/-! ## Looking up a member -/

theorem lookupMember_of_not_isClass (h : (t.scope id).isClass = false) (name : String) :
    t.lookupMember id name = none := by
  unfold lookupMember path
  rw [List.takeWhile_cons, if_neg (by simp [h])]
  rfl

/-- A class has its own members and those of the scope around it. -/
theorem lookupMember_eq_or {parent : ScopeId} (hc : (t.scope id).isClass = true)
    (he : (t.scope id).enclosing = t.path parent) (name : String) :
    t.lookupMember id name = ((t.scope id).member? name).or (t.lookupMember parent name) := by
  unfold lookupMember
  rw [path, he, List.takeWhile_cons, if_pos hc, List.findSome?_cons]
  cases (t.scope id).member? name <;> rfl

/-- A member that is found is declared in a class on the way outward. -/
theorem mem_path_of_lookupMember {s : Symbol} (h : t.lookupMember id name = some s) :
    ∃ j ∈ t.path id, (t.scope j).isClass = true ∧ (t.scope j).get? name = some s := by
  obtain ⟨j, hj, hs⟩ := List.exists_of_findSome?_eq_some h
  have hclass : (t.scope j).isClass = true :=
    List.all_eq_true.mp List.all_takeWhile j hj
  refine ⟨j, (List.takeWhile_prefix _).subset hj, hclass, ?_⟩
  exact (Option.filter_eq_some_iff.mp hs).1

/-- The symbol found lies in a scope that is no younger than the one asked. -/
theorem SymbolsFit.scope_le_of_lookupMember (h : SymbolsFit t) (ho : t.Ordered) {s : Symbol}
    (hs : t.lookupMember id name = some s) : s.scope ≤ id := by
  obtain ⟨j, hj, _, hget⟩ := mem_path_of_lookupMember hs
  rw [(h j name s hget).scope_eq]
  rcases List.mem_cons.mp hj with rfl | hj
  · exact Nat.le_refl _
  · exact Nat.le_of_lt (ho id j hj)

/-- Every symbol of a class scope is a member. -/
theorem SymbolsFit.member?_eq (h : SymbolsFit t) (hc : (t.scope id).isClass = true)
    (name : String) : (t.scope id).member? name = (t.scope id).get? name := by
  unfold SymbolTable.member?
  cases hs : (t.scope id).get? name with
  | none => rfl
  | some s =>
    have hk := (h id name s hs).kind
    unfold SymbolTable.isClass at hc
    have hmember : s.kind.isMember = true := by
      cases hkind : (t.scope id).kind <;> simp_all [ScopeKind.isClass, ScopeKind.Admits]
    exact Option.filter_some_pos hmember

end ScopeTree

end IcLir
