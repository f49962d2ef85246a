import IcLir.Scope.Tree

/-
  How the scope tree grows. Opening a scope adds it at the end, declaring a name changes the
  symbols of one scope; nothing else is ever written. `Extends` says what any scope keeps while
  it is still being filled, `SameBelow k` that the scopes before number `k` are left as they are.
  A scope lies inside older scopes only (`Ordered`), so a walk outward from a scope below `k`
  never meets a scope that changes.
-/

namespace IcLir

namespace ScopeTree

/-- Every scope lies inside scopes that were opened before it. -/
def Ordered (t : ScopeTree) : Prop := ∀ id, ∀ j ∈ (t.scope id).enclosing, j < id

/-- `t'` has all scopes of `t`, in their places and with at least their symbols. -/
structure Extends (t t' : ScopeTree) : Prop where
  size_le : t.size ≤ t'.size
  kind : ∀ id, id < t.size → (t'.scope id).kind = (t.scope id).kind
  depth : ∀ id, id < t.size → (t'.scope id).depth = (t.scope id).depth
  isStatic : ∀ id, id < t.size → (t'.scope id).isStatic = (t.scope id).isStatic
  enclosing : ∀ id, id < t.size → (t'.scope id).enclosing = (t.scope id).enclosing
  symbol : ∀ id, id < t.size → ∀ name s, (t.scope id).get? name = some s →
    (t'.scope id).get? name = some s

/-- The scopes before number `k` are the same in both trees. -/
def SameBelow (k : Nat) (t t' : ScopeTree) : Prop := ∀ id, id < k → t'.scope id = t.scope id

namespace Extends

variable {t t' t'' : ScopeTree}

theorem refl (t : ScopeTree) : t.Extends t where
  size_le := Nat.le_refl _
  kind _ _ := rfl
  depth _ _ := rfl
  isStatic _ _ := rfl
  enclosing _ _ := rfl
  symbol _ _ _ _ h := h

theorem trans (h : t.Extends t') (h' : t'.Extends t'') : t.Extends t'' where
  size_le := Nat.le_trans h.size_le h'.size_le
  kind id hid := (h'.kind id (Nat.lt_of_lt_of_le hid h.size_le)).trans (h.kind id hid)
  depth id hid := (h'.depth id (Nat.lt_of_lt_of_le hid h.size_le)).trans (h.depth id hid)
  isStatic id hid :=
    (h'.isStatic id (Nat.lt_of_lt_of_le hid h.size_le)).trans (h.isStatic id hid)
  enclosing id hid :=
    (h'.enclosing id (Nat.lt_of_lt_of_le hid h.size_le)).trans (h.enclosing id hid)
  symbol id hid name s hs :=
    h'.symbol id (Nat.lt_of_lt_of_le hid h.size_le) name s (h.symbol id hid name s hs)

theorem path_eq (h : t.Extends t') {id : ScopeId} (hid : id < t.size) :
    t'.path id = t.path id := by
  unfold path
  rw [h.enclosing id hid]

/-- The tables beside the scopes do not matter. -/
theorem of_scopes_eq (h : t.Extends t') (hs : t''.scopes = t'.scopes) : t.Extends t'' := by
  have hscope : ∀ id, t''.scope id = t'.scope id := by
    intro id
    simp only [scope, scope?, hs]
  have hsize : t''.size = t'.size := congrArg List.length hs
  refine ⟨hsize ▸ h.size_le, ?_, ?_, ?_, ?_, ?_⟩
  all_goals intro id hid; rw [hscope id]
  · exact h.kind id hid
  · exact h.depth id hid
  · exact h.isStatic id hid
  · exact h.enclosing id hid
  · exact h.symbol id hid

end Extends

namespace SameBelow

variable {k k' : Nat} {t t' t'' : ScopeTree}

theorem refl (k : Nat) (t : ScopeTree) : SameBelow k t t := fun _ _ => rfl

theorem trans (h : SameBelow k t t') (h' : SameBelow k t' t'') : SameBelow k t t'' :=
  fun id hid => (h' id hid).trans (h id hid)

theorem mono (h : SameBelow k t t') (hk : k' ≤ k) : SameBelow k' t t' :=
  fun id hid => h id (Nat.lt_of_lt_of_le hid hk)

theorem path_eq (h : SameBelow k t t') {id : ScopeId} (hid : id < k) :
    t'.path id = t.path id := by
  unfold path
  rw [h id hid]

theorem lookupMember_eq (h : SameBelow k t t') (ho : t.Ordered) {id : ScopeId} (hid : id < k)
    (name : String) : t'.lookupMember id name = t.lookupMember id name := by
  have hpath : ∀ j ∈ t.path id, t'.scope j = t.scope j := by
    intro j hj
    rcases List.mem_cons.mp hj with rfl | hj
    · exact h j hid
    · exact h j (Nat.lt_trans (ho id j hj) hid)
  unfold lookupMember
  rw [h.path_eq hid]
  generalize t.path id = path at hpath
  induction path with
  | nil => rfl
  | cons j path ih =>
    have hj := hpath j List.mem_cons_self
    have htail := ih fun i hi => hpath i (List.mem_cons_of_mem j hi)
    rw [List.takeWhile_cons, List.takeWhile_cons, hj]
    by_cases hc : (t.scope j).isClass = true
    · rw [if_pos hc, if_pos hc, List.findSome?_cons, List.findSome?_cons, hj, htail]
    · rw [if_neg hc, if_neg hc]
      rfl

end SameBelow

/-! ## Opening a scope -/

section Open

variable (t : ScopeTree) (parent : ScopeId) (kind : ScopeKind) (name : String)

theorem scope_addScope_of_lt {id : ScopeId} (h : id < t.size) :
    (t.addScope parent kind name).2.scope id = t.scope id := by
  unfold scope
  rw [scope?_addScope_of_lt t parent kind name h]

theorem scope_addScope_self :
    (t.addScope parent kind name).2.scope t.size =
      ⟨(t.scope parent).inside kind name, t.path parent⟩ := by
  simp only [addScope, scope, scope?, size, List.getElem?_append_right, Nat.le_refl, Nat.sub_self]
  rfl

theorem extends_addScope : t.Extends (t.addScope parent kind name).2 where
  size_le := by rw [size_addScope]; omega
  kind id hid := by rw [scope_addScope_of_lt t parent kind name hid]
  depth id hid := by rw [scope_addScope_of_lt t parent kind name hid]
  isStatic id hid := by rw [scope_addScope_of_lt t parent kind name hid]
  enclosing id hid := by rw [scope_addScope_of_lt t parent kind name hid]
  symbol id hid n s hs := by rw [scope_addScope_of_lt t parent kind name hid]; exact hs

theorem scope_of_size_le {id : ScopeId} (h : t.size ≤ id) : t.scope id = default := by
  unfold scope scope?
  rw [List.getElem?_eq_none h]
  rfl

theorem ordered_addScope (ho : t.Ordered) (hp : parent < t.size) :
    (t.addScope parent kind name).2.Ordered := by
  intro id j hj
  rcases Nat.lt_trichotomy id t.size with hid | hid | hid
  · rw [scope_addScope_of_lt t parent kind name hid] at hj
    exact ho id j hj
  · rw [hid, scope_addScope_self] at hj
    rw [hid]
    rcases List.mem_cons.mp hj with rfl | hj
    · exact hp
    · exact Nat.lt_trans (ho parent j hj) hp
  · rw [scope_of_size_le _ (by rw [size_addScope]; omega)] at hj
    exact absurd hj (by simp [default, instInhabitedScope.default])

end Open

/-! ## Declaring a name -/

section Insert

variable {t t' : ScopeTree} {id : ScopeId} {name : String} {kind : SymbolKind} {type : TypeId}
  {span : Span}

theorem get?_eq_none_of_insert (h : t.insert id name kind type span = .ok t') :
    (t.scope id).get? name = none := by
  unfold insert at h
  split at h
  · simp at h
  · next hn => simpa using hn

/-- The tables and the other scopes stay as they are. -/
theorem insert_eq (h : t.insert id name kind type span = .ok t') :
    t' = { t with scopes := t.scopes.modify id fun s =>
             { s with symbols := s.symbols.insert name ⟨name, kind, type, id, span⟩ } } := by
  unfold insert at h
  split at h
  · simp at h
  · exact (Except.ok.inj h).symm

theorem classScopes_insert (h : t.insert id name kind type span = .ok t') :
    t'.classScopes = t.classScopes := by
  rw [insert_eq h]

theorem methodScopes_insert (h : t.insert id name kind type span = .ok t') :
    t'.methodScopes = t.methodScopes := by
  rw [insert_eq h]

theorem blockScopes_insert (h : t.insert id name kind type span = .ok t') :
    t'.blockScopes = t.blockScopes := by
  rw [insert_eq h]

theorem size_insert (h : t.insert id name kind type span = .ok t') : t'.size = t.size := by
  rw [insert_eq h]
  simp [size]

theorem scope_insert_of_ne (h : t.insert id name kind type span = .ok t') {j : ScopeId}
    (hj : j ≠ id) : t'.scope j = t.scope j := by
  rw [insert_eq h]
  simp [scope, scope?, Ne.symm hj]

theorem scope_insert_self (h : t.insert id name kind type span = .ok t') (hid : id < t.size) :
    t'.scope id = { t.scope id with
      symbols := (t.scope id).symbols.insert name ⟨name, kind, type, id, span⟩ } := by
  rw [insert_eq h]
  have hid' : id < t.scopes.length := hid
  simp [scope, scope?, hid']

theorem get?_insert (h : t.insert id name kind type span = .ok t') (hid : id < t.size)
    (other : String) :
    (t'.scope id).get? other =
      if other = name then some ⟨name, kind, type, id, span⟩ else (t.scope id).get? other := by
  rw [scope_insert_self h hid]
  exact OrderedMap.get?_insert ..

theorem extends_insert (h : t.insert id name kind type span = .ok t') (hid : id < t.size) :
    t.Extends t' := by
  have hscope : ∀ j, (t'.scope j).kind = (t.scope j).kind ∧
      (t'.scope j).depth = (t.scope j).depth ∧ (t'.scope j).isStatic = (t.scope j).isStatic ∧
      (t'.scope j).enclosing = (t.scope j).enclosing := by
    intro j
    by_cases hj : j = id
    · subst hj
      rw [scope_insert_self h hid]
      exact ⟨rfl, rfl, rfl, rfl⟩
    · rw [scope_insert_of_ne h hj]
      exact ⟨rfl, rfl, rfl, rfl⟩
  refine ⟨Nat.le_of_eq (size_insert h).symm, fun j _ => (hscope j).1, fun j _ => (hscope j).2.1,
    fun j _ => (hscope j).2.2.1, fun j _ => (hscope j).2.2.2, ?_⟩
  intro j _ other s hs
  by_cases hj : j = id
  · subst hj
    rw [get?_insert h hid]
    have hne : other ≠ name := by
      rintro rfl
      rw [get?_eq_none_of_insert h] at hs
      simp at hs
    rw [if_neg hne, hs]
  · rw [scope_insert_of_ne h hj, hs]

theorem sameBelow_insert (h : t.insert id name kind type span = .ok t') : SameBelow id t t' :=
  fun _ hj => scope_insert_of_ne h (Nat.ne_of_lt hj)

theorem ordered_insert (h : t.insert id name kind type span = .ok t') (hid : id < t.size)
    (ho : t.Ordered) : t'.Ordered := by
  intro j i hi
  by_cases hj : j = id
  · subst hj
    rw [scope_insert_self h hid] at hi
    exact ho j i hi
  · rw [scope_insert_of_ne h hj] at hi
    exact ho j i hi

end Insert

end ScopeTree

end IcLir
