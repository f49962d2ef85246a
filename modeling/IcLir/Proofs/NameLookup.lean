import IcLir.Proofs.ProgramScopes

/-
  The walk outward from a scope inside a method. It passes the blocks and the method, then the
  classes, then the global scope (`Inside`, `Scopes.upToGlobal`); so a bare name that is found to
  be a field is a member of the class, and the method is not static
  (`Inside.lookupMember_of_lookupVisible`).
-/

namespace IcLir

namespace ScopeTree

variable {t : ScopeTree} {owner scope inner : ScopeId} {isStatic : Bool}

variable {name : String} {visible : Nat} {s : Symbol}

/-- The scopes from `scope` up to a method of the class scope `owner` are `inside`. -/
structure Inside (t : ScopeTree) (owner : ScopeId) (isStatic : Bool) (scope : ScopeId)
    (inside : List ScopeId) : Prop where
  path_eq : t.path scope = inside ++ t.path owner
  outward_eq : t.outward (t.path scope) =
    inside ++ (if isStatic then [global] else t.outward (t.path owner))
  isVariable : ∀ j ∈ inside, ∀ name s, (t.scope j).get? name = some s → s.kind.isVariable = true

theorem MethodOf.inside {m : MethodDecl} (h : t.MethodOf owner m scope)
    (hfit : t.SymbolsFit) : t.Inside owner m.isStatic scope [scope] := by
  obtain ⟨result, hkind⟩ := h.kind
  refine ⟨?_, ?_, ?_⟩
  · rw [path, h.enclosing]
    rfl
  · rw [path, h.enclosing, outward, hkind]
    cases m.isStatic <;> rfl
  · intro j hj name s hs
    rw [List.mem_singleton.mp hj] at hs
    have hk := (hfit scope name s hs).kind
    rw [hkind] at hk
    exact hk

theorem Inside.block {node : NodeId} {inside : List ScopeId}
    (h : t.Inside owner isStatic scope inside) (hb : t.BlockOf scope node inner)
    (hfit : t.SymbolsFit) : t.Inside owner isStatic inner (inner :: inside) := by
  obtain ⟨hpath, hout, hvars⟩ := h
  refine ⟨?_, ?_, ?_⟩
  · rw [path, hb.enclosing, hpath]
    rfl
  · rw [path, hb.enclosing, outward, hb.kind, hout]
    rfl
  · intro j hj name s hs
    rcases List.mem_cons.mp hj with rfl | hj
    · have hk := (hfit j name s hs).kind
      rw [hb.kind] at hk
      exact hk
    · exact hvars j hj name s hs

/-! ## The classes around a method -/

/-- The scopes from a class outward are classes, up to the global scope. -/
def UpToGlobal (t : ScopeTree) (owner : ScopeId) : Prop :=
  ∃ above, t.path owner = above ++ [global] ∧ ∀ j ∈ above, (t.scope j).isClass = true

theorem outward_of_no_method {ids : List ScopeId}
    (h : ∀ j ∈ ids, (t.scope j).kind.isStaticMethod = false) : t.outward ids = ids := by
  induction ids with
  | nil => rfl
  | cons j ids ih =>
    rw [outward, if_neg (by simp [h j (by simp)]), ih fun k hk => h k (List.mem_cons_of_mem _ hk)]

theorem UpToGlobal.outward_path (h : t.UpToGlobal owner)
    (hglobal : (t.scope global).kind = .global) : t.outward (t.path owner) = t.path owner := by
  obtain ⟨above, hpath, habove⟩ := h
  refine outward_of_no_method fun j hj => ?_
  rw [hpath] at hj
  rcases List.mem_append.mp hj with hj | hj
  · have hc := habove j hj
    unfold SymbolTable.isClass at hc
    cases hk : (t.scope j).kind <;> simp_all [ScopeKind.isClass, ScopeKind.isStaticMethod]
  · rw [List.mem_singleton.mp hj, hglobal]
    rfl

/-- In a class every symbol is a member, and in view. -/
theorem filter_isVisible_of_isClass {j : ScopeId} (hfit : t.SymbolsFit)
    (hc : (t.scope j).isClass = true) (name : String) (visible : Nat) :
    ((t.scope j).get? name).filter (·.isVisible visible) = (t.scope j).member? name := by
  rw [hfit.member?_eq hc]
  cases hs : (t.scope j).get? name with
  | none => rfl
  | some s =>
    have hk := (hfit j name s hs).kind
    have hvisible : s.isVisible visible = true := by
      unfold SymbolTable.isClass at hc
      unfold Symbol.isVisible
      cases hkind : (t.scope j).kind <;> simp_all [ScopeKind.isClass, ScopeKind.Admits]
      cases hs' : s.kind <;> simp_all [SymbolKind.isMember]
    exact Option.filter_some_pos hvisible

/-- From a class outward, the members of the class come first and then the names of classes. -/
theorem UpToGlobal.findSome?_path (hfit : t.SymbolsFit) (h : t.UpToGlobal owner)
    (hglobal : (t.scope global).kind = .global) (name : String) (visible : Nat) :
    (t.path owner).findSome? (fun j => ((t.scope j).get? name).filter (·.isVisible visible)) =
      (t.lookupMember owner name).or
        (((t.scope global).get? name).filter (·.isVisible visible)) := by
  obtain ⟨above, hpath, habove⟩ := h
  have hsame : above.findSome? (fun j => ((t.scope j).get? name).filter (·.isVisible visible)) =
      above.findSome? fun j => (t.scope j).member? name := by
    clear hpath
    induction above with
    | nil => rfl
    | cons j above ih =>
      rw [List.findSome?_cons, List.findSome?_cons,
        filter_isVisible_of_isClass hfit (habove j (by simp)) name visible,
        ih fun k hk => habove k (List.mem_cons_of_mem _ hk)]
  have hnot : (t.scope global).isClass = false := by
    rw [SymbolTable.isClass, hglobal]
    rfl
  have hmember : t.lookupMember owner name =
      above.findSome? fun j => (t.scope j).member? name := by
    unfold lookupMember
    rw [hpath, List.takeWhile_append_of_pos habove, List.takeWhile_cons, if_neg (by simp [hnot]),
      List.append_nil]
  rw [hpath, List.findSome?_append, hsame, ← hmember, List.findSome?_singleton]

/-- In the global scope there are names of classes only. -/
theorem SymbolsFit.kind_of_global (hfit : t.SymbolsFit)
    (hglobal : (t.scope global).kind = .global)
    (hs : ((t.scope global).get? name).filter (·.isVisible visible) = some s) :
    s.kind = .className := by
  have hk := (hfit global name s (Option.filter_eq_some_iff.mp hs).1).kind
  rw [hglobal] at hk
  exact hk

/-- A bare name that stands for a field is a member of the class, in a method with a
    receiver. -/
theorem Inside.lookupMember_of_lookupVisible {inside : List ScopeId}
    (h : t.Inside owner isStatic scope inside) (hfit : t.SymbolsFit) (hclasses : t.UpToGlobal owner)
    (hglobal : (t.scope global).kind = .global) (hs : t.lookupVisible scope name visible = some s)
    (hkind : s.kind = .field) : isStatic = false ∧ t.lookupMember owner name = some s := by
  obtain ⟨_, hout, hvars⟩ := h
  unfold lookupVisible at hs
  rw [hout, List.findSome?_append] at hs
  -- the method and its blocks hold variables only
  have hinside : inside.findSome?
      (fun j => ((t.scope j).get? name).filter (·.isVisible visible)) = none := by
    cases hf : inside.findSome?
        (fun j => ((t.scope j).get? name).filter (·.isVisible visible)) with
    | none => rfl
    | some s' =>
      obtain ⟨j, hj, hs'⟩ := List.exists_of_findSome?_eq_some hf
      rw [hf] at hs
      obtain rfl : s' = s := Option.some.inj hs
      have := hvars j hj name s' (Option.filter_eq_some_iff.mp hs').1
      rw [hkind] at this
      exact absurd this (by decide)
  rw [hinside, Option.none_or] at hs
  cases isStatic with
  | true =>
    rw [if_pos rfl, List.findSome?_singleton] at hs
    have hk := hfit.kind_of_global hglobal hs
    rw [hkind] at hk
    simp at hk
  | false =>
    rw [if_neg (by decide), hclasses.outward_path hglobal,
      hclasses.findSome?_path hfit hglobal] at hs
    refine ⟨rfl, ?_⟩
    rcases Option.or_eq_some_iff.mp hs with hm | ⟨_, hs⟩
    · exact hm
    · have hk := hfit.kind_of_global hglobal hs
      rw [hkind] at hk
      simp at hk

/-- A variable that is found is declared in the scope that its symbol names. -/
theorem get?_of_lookupVisible (hfit : t.SymbolsFit)
    (hs : t.lookupVisible scope name visible = some s) : (t.scope s.scope).get? name = some s := by
  obtain ⟨j, _, hj⟩ := List.exists_of_findSome?_eq_some hs
  have hget := (Option.filter_eq_some_iff.mp hj).1
  rw [(hfit j name s hget).scope_eq]
  exact hget

end ScopeTree

namespace Definition

open TypeTable

theorem Sound.path_global {d : Definition} (h : Sound d) :
    d.scopes.path ScopeTree.global = [ScopeTree.global] := by
  have hnone : (d.scopes.scope ScopeTree.global).enclosing = [] := by
    rw [List.eq_nil_iff_forall_not_mem]
    intro j hj
    exact Nat.not_lt_zero j (h.ordered ScopeTree.global j hj)
  rw [ScopeTree.path, hnone]

/-- The scope of a class lies in those of its superclasses, and these in the global one. -/
theorem Scopes.upToGlobal {classes : List ClassDecl} {d : Definition}
    (h : Scopes classes classes d) {i : Nat} {c : ClassDecl} {scope parent : ScopeId}
    (hi : classes[i]? = some c) (hc : ClassOf d c (classId i) scope parent) :
    d.scopes.UpToGlobal scope := by
  induction i using Nat.strongRecOn generalizing c scope parent with
  | ind i ih =>
    have hin := hc.liesIn
    unfold LiesIn at hin
    rcases h.table.superclass?_cases hi with hnone | ⟨j, b, hj, hb, hsome⟩
    · rw [hnone] at hin
      refine ⟨[scope], ?_, by simpa using hc.isClass⟩
      rw [ScopeTree.path, hc.enclosing, hin, h.sound.path_global]
      rfl
    · rw [hsome] at hin
      obtain ⟨scope', parent', hb'⟩ := h.classOf j b hb
      obtain rfl : scope' = parent := Option.some.inj (hb'.get?.symm.trans hin)
      obtain ⟨above, hpath, habove⟩ := ih j hj hb hb'
      refine ⟨scope :: above, ?_, ?_⟩
      · rw [ScopeTree.path, hc.enclosing, hpath]
        rfl
      · intro k hk
        rcases List.mem_cons.mp hk with rfl | hk
        · exact hc.isClass
        · exact habove k hk

end Definition

end IcLir
