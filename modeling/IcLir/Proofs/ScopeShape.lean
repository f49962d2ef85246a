import IcLir.Proofs.ScopeNesting
import IcLir.Scope.Text
import Mathlib.Data.List.Flatten

/-
  The shape of the scope tree. Whatever scopes are opened and names declared, in whatever order,
  every scope but the global one lies in one older scope (`Parented`). So the scopes that a lookup
  can pass are a scope and those that it can pass from the next one (`path_eq`,
  `outward_path_eq`), and the text of the tables has every scope once, after the one around it:
  from the youngest scope back, the subtrees of the scopes from `k` on that lie in older ones hold
  just those scopes (`roots_perm`).
-/

namespace IcLir

namespace ScopeTree

variable {t t' : ScopeTree}

/-! ## Parents -/

/-- The scope `id` lies in the older scope `p`, which fixes what is around it and, unless it is
    a class, its depth. -/
def LiesIn (t : ScopeTree) (id p : ScopeId) : Prop :=
  p < id ∧ (t.scope id).enclosing = t.path p ∧
    t.depth id = (if (t.scope id).isClass then 1 else t.depth p + 1) ∧
    (t.scope id).kind ≠ .global

/-- Every scope but the global one lies in an older one. -/
def Parented (t : ScopeTree) : Prop :=
  ∀ id, id < t.size → id ≠ global → ∃ p, t.LiesIn id p

namespace Parented

theorem initial : ScopeTree.initial.Parented := by
  intro id hid hne
  exact absurd (Nat.lt_one_iff.mp hid) hne

/-- Only new scopes are to be looked at. -/
theorem extend (h : t.Parented) (he : t.Extends t')
    (hnew : ∀ id, t.size ≤ id → id < t'.size → ∃ p, t'.LiesIn id p) : t'.Parented := by
  intro id hid hne
  by_cases hlt : id < t.size
  · obtain ⟨p, hp, henclosing, hdepth, hkind⟩ := h id hlt hne
    have hplt := Nat.lt_trans hp hlt
    refine ⟨p, hp, ?_, ?_, ?_⟩
    · rw [he.enclosing id hlt, he.path_eq hplt, henclosing]
    · unfold depth SymbolTable.isClass at hdepth ⊢
      rw [he.depth id hlt, he.kind id hlt, he.depth p hplt, hdepth]
    · rwa [he.kind id hlt]
  · exact hnew id (Nat.le_of_not_lt hlt) hid

theorem addScope (h : t.Parented) {parent : ScopeId} (hp : parent < t.size) (kind : ScopeKind)
    (name : String) (hkind : kind ≠ .global) : (t.addScope parent kind name).2.Parented := by
  have hext := extends_addScope t parent kind name
  refine h.extend hext fun id hle hlt => ?_
  rw [size_addScope] at hlt
  obtain rfl : id = t.size := by omega
  refine ⟨parent, hp, ?_, ?_, ?_⟩
  · rw [scope_addScope_self, hext.path_eq hp]
  · unfold depth
    rw [scope_addScope_self, hext.depth parent hp]
    rfl
  · rwa [scope_addScope_self]

theorem edit (h : t.Parented) (hn : t.Nested) (hedit : Edit t t') : t'.Parented := by
  cases hedit with
  | openClass type name superclass =>
    exact h.addScope (hn.superclassScope superclass).1 (.classScope type) name nofun
  | openMethod node name isStatic result hp =>
    exact h.addScope hp (.method isStatic result) name nofun
  | openBlock node hp => exact h.addScope hp .block _ nofun
  | declare hid hinsert =>
    refine h.extend (extends_insert hinsert hid) fun id hle hlt => ?_
    rw [size_insert hinsert] at hlt
    exact absurd hle (Nat.not_le_of_lt hlt)

theorem builds (hbuilds : Builds .initial t) : t.Parented := by
  induction hbuilds with
  | refl => exact initial
  | tail hbuilds hedit ih => exact ih.edit (Nested.initial.builds hbuilds) hedit

end Parented

theorem LiesIn.parent? {id p : ScopeId} (h : t.LiesIn id p) : t.parent? id = some p := by
  rw [ScopeTree.parent?, Scope.parent?, h.2.1]
  rfl

theorem parent?_addScope (t : ScopeTree) (parent : ScopeId) (kind : ScopeKind) (name : String)
    (id : ScopeId) : (t.addScope parent kind name).2.parent? id =
      if id = t.size then some parent else t.parent? id := by
  unfold parent?
  rcases Nat.lt_trichotomy id t.size with hlt | rfl | hgt
  · rw [scope_addScope_of_lt t parent kind name hlt, if_neg (Nat.ne_of_lt hlt)]
  · rw [scope_addScope_self, if_pos rfl]
    rfl
  · rw [scope_of_size_le _ (by rw [size_addScope]; exact hgt), if_neg (Nat.ne_of_gt hgt),
      scope_of_size_le _ (Nat.le_of_lt hgt)]

/-- A new scope comes last among those in its parent. -/
theorem children_addScope (t : ScopeTree) (parent : ScopeId) (kind : ScopeKind) (name : String)
    (id : ScopeId) : (t.addScope parent kind name).2.children id =
      t.children id ++ if parent = id then [t.size] else [] := by
  unfold children
  rw [size_addScope, List.range_succ, List.filter_append]
  congr 1
  · refine List.filter_congr fun c hc => ?_
    rw [parent?_addScope, if_neg (Nat.ne_of_lt (List.mem_range.mp hc))]
  · rw [List.filter_cons, parent?_addScope, if_pos rfl]
    simp

theorem parent?_insert {id : ScopeId} {name : String} {kind : SymbolKind} {type : TypeId}
    {span : Span} (h : t.insert id name kind type span = .ok t') : t'.parent? = t.parent? := by
  funext j
  rw [insert_eq h]
  simp only [parent?, scope, scope?, List.getElem?_modify]
  cases t.scopes[j]? with
  | none => rfl
  | some s => by_cases hj : id = j <;> simp [hj, Scope.parent?]

/-! ## Walks outward -/

/-- The scope that a lookup goes on in: a static method is followed by the global scope. -/
def nextOutward? (t : ScopeTree) (id : ScopeId) : Option ScopeId :=
  if (t.scope id).kind.isStaticMethod then some global else t.parent? id

namespace Nested

theorem parent?_global (h : t.Nested) : t.parent? global = none := by
  have hpath := h.path_global
  rw [path, List.cons.injEq] at hpath
  rw [ScopeTree.parent?, Scope.parent?, hpath.2]
  rfl

theorem parent?_lt (h : t.Nested) {id j : ScopeId} (hj : t.parent? id = some j) : j < id :=
  h.lt_of_mem_enclosing id (List.mem_of_head? hj)

theorem path_eq (h : t.Nested) (id : ScopeId) :
    t.path id = id :: (t.parent? id).elim [] t.path := by
  unfold ScopeTree.parent? Scope.parent?
  rcases h.enclosing id with hnone | ⟨p, _, hp⟩
  · rw [path, hnone]
    rfl
  · rw [path, hp]
    rfl

theorem outward_path_eq (h : t.Nested) (id : ScopeId) :
    t.outward (t.path id) = id :: (t.nextOutward? id).elim [] fun j => t.outward (t.path j) := by
  rw [h.path_eq, outward, nextOutward?]
  split
  · rw [Option.elim_some, h.path_global, outward, h.isGlobal]
    rfl
  · cases t.parent? id with
    | none => rfl
    | some p => rfl

theorem nextOutward?_lt (h : t.Nested) {id j : ScopeId} (hj : t.nextOutward? id = some j) :
    j < id := by
  unfold nextOutward? at hj
  split at hj
  · next hstatic =>
    obtain rfl := Option.some.inj hj
    -- the global scope is no static method
    refine Nat.pos_of_ne_zero fun hzero => ?_
    rw [hzero] at hstatic
    change (t.scope global).kind.isStaticMethod = true at hstatic
    rw [h.isGlobal] at hstatic
    cases hstatic
  · exact h.parent?_lt hj

end Nested

/-! ## The order of the text -/

/-- One step of `subtrees`: the subtree of a scope is made of those of its children. -/
def addSubtree (t : ScopeTree) (id : ScopeId) (younger : List (ScopeId × List ScopeId)) :
    List (ScopeId × List ScopeId) :=
  (id, id :: (younger.filter fun sub => t.parent? sub.1 = some id).flatMap Prod.snd) :: younger

theorem subtrees_eq (t : ScopeTree) : t.subtrees = (List.range t.size).foldr t.addSubtree [] := rfl

theorem map_fst_foldr_addSubtree (t : ScopeTree) (ids : List ScopeId) :
    (ids.foldr t.addSubtree []).map Prod.fst = ids := by
  induction ids with
  | nil => rfl
  | cons id ids ih => rw [List.foldr_cons, addSubtree, List.map_cons, ih]

/-- The subtrees that are put together in one step are those of the children. -/
theorem Nested.children_eq (h : t.Nested) {k n : Nat} (hsize : k + 1 + n = t.size) :
    t.children k = (((List.range' (k + 1) n).foldr t.addSubtree []).filter
      fun sub => t.parent? sub.1 = some k).map Prod.fst := by
  have hrange : List.range t.size = List.range (k + 1) ++ List.range' (k + 1) n := by
    rw [← hsize, List.range_add, List.range'_eq_map_range]
  have holder : (List.range (k + 1)).filter (fun c => t.parent? c = some k) = [] := by
    refine List.filter_eq_nil_iff.mpr fun c hc hparent => ?_
    exact Nat.not_lt_of_ge (Nat.le_of_lt_succ (List.mem_range.mp hc))
      (h.parent?_lt (of_decide_eq_true hparent))
  have hyounger := List.filter_map (f := Prod.fst) (p := fun c => decide (t.parent? c = some k))
    (l := (List.range' (k + 1) n).foldr t.addSubtree [])
  rw [map_fst_foldr_addSubtree] at hyounger
  rw [children, hrange, List.filter_append, holder, List.nil_append, hyounger]
  rfl

/-- In a subtree every scope but the root comes after its parent. -/
theorem exists_tail_of_mem_subtrees (t : ScopeTree) (ids : List ScopeId) :
    ∀ sub ∈ ids.foldr t.addSubtree [], ∃ tail, sub.2 = sub.1 :: tail ∧
      ∀ id ∈ tail, ∃ p, t.parent? id = some p ∧ [p, id].Sublist sub.2 := by
  induction ids with
  | nil => simp
  | cons root ids ih =>
    intro sub hsub
    rcases List.mem_cons.mp hsub with rfl | hsub
    · refine ⟨_, rfl, fun id hid => ?_⟩
      obtain ⟨inner, hinner, hid'⟩ := List.mem_flatMap.mp hid
      obtain ⟨tail, hsnd, htail⟩ := ih inner (List.mem_filter.mp hinner).1
      have hparent : t.parent? inner.1 = some root := by simpa using (List.mem_filter.mp hinner).2
      rw [hsnd] at hid'
      rcases List.mem_cons.mp hid' with rfl | hid'
      · exact ⟨root, hparent, (List.singleton_sublist.mpr hid).cons_cons root⟩
      · obtain ⟨p, hp, hbefore⟩ := htail id hid'
        have hinside := (List.singleton_sublist.mpr hinner).flatMap Prod.snd
        rw [List.flatMap_singleton] at hinside
        exact ⟨p, hp, (hbefore.trans hinside).cons root⟩
    · exact ih sub hsub

/-- The subtrees whose roots lie in scopes older than `k`. -/
def roots (t : ScopeTree) (k : Nat) (subs : List (ScopeId × List ScopeId)) :
    List (ScopeId × List ScopeId) :=
  subs.filter fun sub => (t.parent? sub.1).any (· < k)

/-- A root among the scopes from `k + 1` on lies in `k` or in an older scope. -/
theorem roots_succ_perm (t : ScopeTree) (k : Nat) (subs : List (ScopeId × List ScopeId)) :
    ((subs.filter fun sub => t.parent? sub.1 = some k) ++ t.roots k subs).Perm
      (t.roots (k + 1) subs) := by
  have hsplit := List.filter_append_perm (fun sub => decide (t.parent? sub.1 = some k))
    (t.roots (k + 1) subs)
  unfold roots at hsplit ⊢
  rw [List.filter_filter, List.filter_filter] at hsplit
  refine .trans (.of_eq ?_) hsplit
  congr 1
  · refine List.filter_congr fun sub _ => ?_
    cases t.parent? sub.1 with
    | none => simp
    | some p => by_cases hp : p = k <;> simp [hp]
  · refine List.filter_congr fun sub _ => ?_
    cases t.parent? sub.1 with
    | none => simp
    | some p =>
      by_cases hp : p = k
      · simp [hp]
      · have hiff : p < k ↔ p < k + 1 :=
          ⟨Nat.lt_succ_of_lt, fun hlt => Nat.lt_of_le_of_ne (Nat.le_of_lt_succ hlt) hp⟩
        simp [hp, hiff]

theorem Parented.roots_perm (h : t.Parented) (n : Nat) : ∀ k, 0 < k → k + n = t.size →
    ((t.roots k ((List.range' k n).foldr t.addSubtree [])).flatMap Prod.snd).Perm
      (List.range' k n) := by
  induction n with
  | zero => intros; exact .refl _
  | succ n ih =>
    intro k hk hsize
    rw [List.range'_succ, List.foldr_cons]
    have hyounger := ih (k + 1) (Nat.succ_pos k) (by omega)
    revert hyounger
    generalize (List.range' (k + 1) n).foldr t.addSubtree [] = younger
    intro hyounger
    -- `k` itself lies in an older scope
    have hlt : k < t.size := by omega
    obtain ⟨p, hlies⟩ := h k hlt (Nat.ne_of_gt hk)
    have hroot : t.roots k (t.addSubtree k younger) =
        (k, k :: (younger.filter fun sub => t.parent? sub.1 = some k).flatMap Prod.snd) ::
          t.roots k younger := by
      rw [roots, addSubtree, List.filter_cons, hlies.parent?, Option.any_some,
        decide_eq_true hlies.1, if_pos rfl]
      rfl
    rw [hroot, List.flatMap_cons, List.cons_append, ← List.flatMap_append]
    exact (((t.roots_succ_perm k younger).flatMap_right Prod.snd).trans hyounger).cons k

theorem Parented.preorder_eq (h : t.Parented) (hpos : 0 < t.size) :
    ∃ sub ∈ t.subtrees, sub.1 = global ∧ sub.2 = t.preorder ∧
      t.preorder.Perm (List.range t.size) := by
  obtain ⟨n, hn⟩ := Nat.exists_eq_add_one.mpr hpos
  have hrange : List.range t.size = global :: List.range' 1 n := by
    rw [hn, List.range_eq_range', List.range'_succ]
    rfl
  have hsubtrees := t.subtrees_eq
  rw [hrange, List.foldr_cons] at hsubtrees
  have hperm := h.roots_perm n 1 Nat.one_pos (by omega)
  revert hperm hsubtrees
  generalize (List.range' 1 n).foldr t.addSubtree [] = younger
  intro hsubtrees hperm
  have hinside : (younger.filter fun sub => t.parent? sub.1 = some global) = t.roots 1 younger := by
    refine List.filter_congr fun sub _ => ?_
    cases t.parent? sub.1 with
    | none => simp
    | some p => simp [global]
  have hpreorder : t.preorder = global :: (t.roots 1 younger).flatMap Prod.snd := by
    rw [preorder, hsubtrees, addSubtree, hinside]
    rfl
  refine ⟨(global, t.preorder), ?_, rfl, rfl, ?_⟩
  · rw [hsubtrees, addSubtree, hinside, ← hpreorder]
    exact List.mem_cons_self
  · rw [hpreorder, hrange]
    exact hperm.cons global

end ScopeTree

end IcLir
