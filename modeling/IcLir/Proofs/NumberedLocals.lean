import IcLir.Proofs.ScopedBody
import IcLir.Proofs.WrittenTypes

/-
  The numbers of locals. `Numbered t types lo scope s n n'` says that the locals declared in
  statement `s` of scope `scope` are numbered from `n` up to `n'` in the order in which they
  stand in the source, that each has the type written for it, and that a scope opened within `s`
  holds no local numbered below the place where it is opened. The locals of a method that come
  later get larger numbers, so walking on keeps this (`Numbered.later`). Walking over a statement
  establishes it (`meets_defineStmt`), and with it what the body needs of the tree
  (`Numbered.scoped`).
-/

namespace IcLir

namespace ScopeTree

/-- `s` is the local `name` of `scope`, of the type `type` and with number `n`. On the way
    outward no other local of the method has this number; the method's scopes are those from
    `lo` on. -/
structure LocalAt (t : ScopeTree) (types : TypeTable) (lo scope : ScopeId) (name : String)
    (type : TypeExpr) (n : Nat) (s : Symbol) : Prop where
  get? : (t.scope scope).get? name = some s
  kind : s.kind = .localVar n
  type : types.denoted? type = some s.type
  unique : ∀ j ∈ t.path scope, lo ≤ j → ∀ name' s', (t.scope j).get? name' = some s' →
    s'.kind = .localVar n → s' = s

/-- The scope holds locals only, with numbers from `n` on. -/
def HoldsFrom (t : ScopeTree) (scope : ScopeId) (n : Nat) : Prop :=
  ∀ name s, (t.scope scope).get? name = some s → ∃ ordinal, s.kind = .localVar ordinal ∧ n ≤ ordinal

/-- `inner` is the scope of the block `node`, which stands after the first `n` locals. -/
structure OpensAt (t : ScopeTree) (scope : ScopeId) (node : NodeId) (n : Nat) (inner : ScopeId) :
    Prop extends BlockOf t scope node inner where
  holds : t.HoldsFrom inner n

/-- `inner` is the scope of a branch that stands after the first `n` locals. -/
def EntersAt (t : ScopeTree) (scope : ScopeId) (body : Stmt) (n : Nat) (inner : ScopeId) : Prop :=
  if body.isDeclaration then t.OpensAt scope body.id n inner else inner = scope

mutual

def Numbered (t : ScopeTree) (types : TypeTable) (lo scope : ScopeId) : Stmt → Nat → Nat → Prop
  | .declare _ type name _, n, n' =>
    n' = n + 1 ∧ ∃ s, t.LocalAt types lo scope name.name type n s
  | .block node stmts, n, n' =>
    ∃ inner, t.OpensAt scope node.id n inner ∧ NumberedList t types lo inner stmts n n'
  | .ifThen _ _ body, n, n' =>
    ∃ inner, t.EntersAt scope body n inner ∧ Numbered t types lo inner body n n'
  | .ifElse _ _ thenBranch elseBranch, n, n' => ∃ mid,
    (∃ inner, t.EntersAt scope thenBranch n inner ∧ Numbered t types lo inner thenBranch n mid) ∧
      ∃ inner, t.EntersAt scope elseBranch mid inner ∧
        Numbered t types lo inner elseBranch mid n'
  | .loop _ _ body, n, n' =>
    ∃ inner, t.EntersAt scope body n inner ∧ Numbered t types lo inner body n n'
  | .assign .., n, n' => n' = n
  | .call .., n, n' => n' = n
  | .ret .., n, n' => n' = n
  | .breakLoop _, n, n' => n' = n
  | .continueLoop _, n, n' => n' = n

def NumberedList (t : ScopeTree) (types : TypeTable) (lo scope : ScopeId) :
    List Stmt → Nat → Nat → Prop
  | [], n, n' => n' = n
  | s :: ss, n, n' => ∃ mid, Numbered t types lo scope s n mid ∧
      NumberedList t types lo scope ss mid n'

end

section

variable {t t' : ScopeTree} {types types' : TypeTable} {lo : ScopeId}

variable {n : Nat} {scope inner : ScopeId} {body : Stmt}

mutual

theorem Numbered.le :
    ∀ (s : Stmt) {scope : ScopeId} {n n' : Nat}, t.Numbered types lo scope s n n' → n ≤ n'
  | .declare .., _, _, _, h => by
    obtain ⟨rfl, _⟩ := h
    exact Nat.le_succ _
  | .block _ stmts, _, _, _, h => by
    obtain ⟨_, _, hs⟩ := h
    exact NumberedList.le stmts hs
  | .ifThen _ _ body, _, _, _, h | .loop _ _ body, _, _, _, h => by
    obtain ⟨_, _, hs⟩ := h
    exact Numbered.le body hs
  | .ifElse _ _ thenBranch elseBranch, _, _, _, h => by
    obtain ⟨_, ⟨_, _, hthen⟩, _, _, helse⟩ := h
    exact Nat.le_trans (Numbered.le thenBranch hthen) (Numbered.le elseBranch helse)
  | .assign .., _, _, _, h | .call .., _, _, _, h | .ret .., _, _, _, h | .breakLoop _, _, _, _, h
  | .continueLoop _, _, _, _, h => Nat.le_of_eq h.symm

theorem NumberedList.le :
    ∀ (ss : List Stmt) {scope : ScopeId} {n n' : Nat},
      t.NumberedList types lo scope ss n n' → n ≤ n'
  | [], _, _, _, h => Nat.le_of_eq h.symm
  | s :: ss, _, _, _, h => by
    obtain ⟨_, hs, hss⟩ := h
    exact Nat.le_trans (Numbered.le s hs) (NumberedList.le ss hss)

end

theorem EntersAt.branchOf (h : t.EntersAt scope body n inner) : t.BranchOf scope body inner := by
  unfold EntersAt at h
  unfold BranchOf
  split at h
  · next hd => rw [if_pos hd]; exact h.toBlockOf
  · next hd => rw [if_neg hd]; exact h

mutual

theorem Numbered.scoped :
    ∀ (s : Stmt) {scope : ScopeId} {n n' : Nat}, t.Numbered types lo scope s n n' →
      t.Scoped scope s
  | .declare .., _, _, _, h => by
    obtain ⟨_, s, hs⟩ := h
    exact ⟨s, _, hs.get?, hs.kind⟩
  | .block _ stmts, _, _, _, h => by
    obtain ⟨inner, hb, hs⟩ := h
    exact ⟨inner, hb.toBlockOf, NumberedList.scoped stmts hs⟩
  | .ifThen _ _ body, _, _, _, h | .loop _ _ body, _, _, _, h => by
    obtain ⟨inner, hb, hs⟩ := h
    exact ⟨inner, hb.branchOf, Numbered.scoped body hs⟩
  | .ifElse _ _ thenBranch elseBranch, _, _, _, h => by
    obtain ⟨_, ⟨inner, hb, hthen⟩, inner', hb', helse⟩ := h
    exact ⟨⟨inner, hb.branchOf, Numbered.scoped thenBranch hthen⟩,
      inner', hb'.branchOf, Numbered.scoped elseBranch helse⟩
  | .assign .., _, _, _, _ | .call .., _, _, _, _ | .ret .., _, _, _, _ | .breakLoop _, _, _, _, _
  | .continueLoop _, _, _, _, _ => trivial

theorem NumberedList.scoped :
    ∀ (ss : List Stmt) {scope : ScopeId} {n n' : Nat},
      t.NumberedList types lo scope ss n n' → t.ScopedList scope ss
  | [], _, _, _, _ => trivial
  | s :: ss, _, _, _, h => by
    obtain ⟨_, hs, hss⟩ := h
    exact ⟨Numbered.scoped s hs, NumberedList.scoped ss hss⟩

end

/-! ## Later locals -/

/-- The tree grew, and what is new in its scopes are locals with numbers from `n` on. -/
structure Later (n : Nat) (t t' : ScopeTree) : Prop extends Extends t t' where
  new : ∀ j, j < t.size → ∀ name s, (t'.scope j).get? name = some s →
    (t.scope j).get? name = some s ∨ ∃ ordinal, s.kind = .localVar ordinal ∧ n ≤ ordinal

theorem Later.mono {n' : Nat} (h : Later n t t') (hn : n' ≤ n) : Later n' t t' := by
  refine ⟨h.toExtends, fun j hj name s hs => ?_⟩
  rcases h.new j hj name s hs with hold | ⟨ordinal, hk, hle⟩
  · exact .inl hold
  · exact .inr ⟨ordinal, hk, Nat.le_trans hn hle⟩

/-- Work on younger scopes adds nothing to those there are. -/
theorem SameBelow.later (h : SameBelow t.size t t') (he : t.Extends t') (n : Nat) :
    Later n t t' := by
  refine ⟨he, fun j hj name s hs => .inl ?_⟩
  rw [h j hj] at hs
  exact hs

theorem LocalAt.later {name : String} {type : TypeExpr} {s : Symbol}
    (h : t.LocalAt types lo scope name type n s) (hl : Later (n + 1) t t') (ho : t.Ordered)
    (ht : types.Extends types') (hscope : scope < t.size) :
    t'.LocalAt types' lo scope name type n s where
  get? := hl.symbol scope hscope name s h.get?
  kind := h.kind
  type := ht.denoted?_of_some h.type
  unique j hj hlo name' s' hs' hk := by
    rw [hl.path_eq hscope] at hj
    have hlt : j < t.size := by
      rcases List.mem_cons.mp hj with rfl | hj
      · exact hscope
      · exact Nat.lt_trans (ho scope j hj) hscope
    rcases hl.new j hlt name' s' hs' with hold | ⟨ordinal, hk', hle⟩
    · exact h.unique j hj hlo name' s' hold hk
    · have := SymbolKind.localVar.inj (hk.symm.trans hk')
      omega

theorem OpensAt.later {node : NodeId} (h : t.OpensAt scope node n inner) (hl : Later n t t')
    (hscope : scope < t.size) (hnode : t'.blockScopes.get? node = t.blockScopes.get? node) :
    t'.OpensAt scope node n inner where
  toBlockOf := h.toBlockOf.extend hl.toExtends hscope hnode
  holds name s hs := by
    rcases hl.new inner h.lt name s hs with hold | hnew
    · exact h.holds name s hold
    · exact hnew

theorem EntersAt.lt (h : t.EntersAt scope body n inner) (hscope : scope < t.size) :
    inner < t.size := by
  unfold EntersAt at h
  split at h
  · exact h.lt
  · exact h ▸ hscope

theorem EntersAt.later (h : t.EntersAt scope body n inner) (hl : Later n t t')
    (hscope : scope < t.size) (hnode : t'.blockScopes.get? body.id = t.blockScopes.get? body.id) :
    t'.EntersAt scope body n inner := by
  unfold EntersAt at h ⊢
  split at h
  · next hd =>
    rw [if_pos hd]
    exact h.later hl hscope hnode
  · next hd =>
    rw [if_neg hd]
    exact h

/-- A branch with its scope, in the larger tree. -/
theorem branch_later {n' : Nat}
    (ih : ∀ inner, inner < t.size → t.Numbered types lo inner body n n' →
      (∀ i ∈ body.ids, t'.blockScopes.get? i = t.blockScopes.get? i) →
      t'.Numbered types' lo inner body n n')
    (h : ∃ inner, t.EntersAt scope body n inner ∧ t.Numbered types lo inner body n n')
    (hl : Later n t t') (hscope : scope < t.size)
    (hnodes : ∀ i ∈ body.ids, t'.blockScopes.get? i = t.blockScopes.get? i) :
    ∃ inner, t'.EntersAt scope body n inner ∧ t'.Numbered types' lo inner body n n' := by
  obtain ⟨inner, hb, hs⟩ := h
  exact ⟨inner, hb.later hl hscope (hnodes _ body.id_mem_ids), ih inner (hb.lt hscope) hs hnodes⟩

mutual

theorem Numbered.later (ho : t.Ordered) (ht : types.Extends types') :
    ∀ (s : Stmt) (scope : ScopeId) (n n' : Nat), scope < t.size →
      t.Numbered types lo scope s n n' → Later n' t t' →
      (∀ i ∈ s.ids, t'.blockScopes.get? i = t.blockScopes.get? i) →
      t'.Numbered types' lo scope s n n'
  | .declare _ _ _ _, _, _, _, hscope, h, hl, _ => by
    obtain ⟨rfl, s, hs⟩ := h
    exact ⟨rfl, s, hs.later hl ho ht hscope⟩
  | .block node stmts, scope, n, n', hscope, h, hl, hnodes => by
    obtain ⟨inner, hb, hs⟩ := h
    have hle := NumberedList.le stmts hs
    refine ⟨inner, hb.later (hl.mono hle) hscope
      (hnodes _ (Stmt.id_mem_ids (.block node stmts))), ?_⟩
    refine NumberedList.later ho ht stmts inner n n' hb.lt hs hl fun i hi => hnodes i ?_
    simp only [Stmt.ids, Stmt.nodes, List.map_cons, List.mem_cons]
    exact .inr hi
  | .ifThen node condition body, scope, n, n', hscope, h, hl, hnodes
  | .loop node condition body, scope, n, n', hscope, h, hl, hnodes => by
    obtain ⟨inner, hb, hs⟩ := h
    have hle := Numbered.le body hs
    refine branch_later (fun inner hinner hs hids =>
      Numbered.later ho ht body inner n n' hinner hs hl hids) ⟨inner, hb, hs⟩ (hl.mono hle) hscope
      fun i hi => hnodes i ?_
    simp only [Stmt.ids, Stmt.nodes, List.map_cons, List.mem_cons]
    exact .inr hi
  | .ifElse node condition thenBranch elseBranch, scope, n, n', hscope, h, hl, hnodes => by
    simp only [Stmt.ids, Stmt.nodes, List.map_cons, List.map_append, List.mem_cons,
      List.mem_append] at hnodes
    obtain ⟨mid, ⟨inner, hb, hthen⟩, inner', hb', helse⟩ := h
    have hmid := Numbered.le thenBranch hthen
    have hlmid := hl.mono (Numbered.le elseBranch helse)
    refine ⟨mid, ?_, ?_⟩
    · exact branch_later (fun inner hinner hs hids =>
        Numbered.later ho ht thenBranch inner n mid hinner hs hlmid hids) ⟨inner, hb, hthen⟩
        (hlmid.mono hmid) hscope fun i hi => hnodes i (.inr (.inl hi))
    · exact branch_later (fun inner hinner hs hids =>
        Numbered.later ho ht elseBranch inner mid n' hinner hs hl hids) ⟨inner', hb', helse⟩
        hlmid hscope fun i hi => hnodes i (.inr (.inr hi))
  | .assign .., _, _, _, _, h, _, _ | .call .., _, _, _, _, h, _, _ | .ret .., _, _, _, _, h, _, _
  | .breakLoop _, _, _, _, _, h, _, _ | .continueLoop _, _, _, _, _, h, _, _ => h

theorem NumberedList.later (ho : t.Ordered) (ht : types.Extends types') :
    ∀ (ss : List Stmt) (scope : ScopeId) (n n' : Nat), scope < t.size →
      t.NumberedList types lo scope ss n n' → Later n' t t' →
      (∀ i ∈ Stmt.idsOfList ss, t'.blockScopes.get? i = t.blockScopes.get? i) →
      t'.NumberedList types' lo scope ss n n'
  | [], _, _, _, _, h, _, _ => h
  | s :: ss, scope, n, n', hscope, h, hl, hnodes => by
    rw [Stmt.idsOfList_cons] at hnodes
    obtain ⟨mid, hs, hss⟩ := h
    have hlmid := hl.mono (NumberedList.le ss hss)
    exact ⟨mid, Numbered.later ho ht s scope n mid hscope hs hlmid
        fun i hi => hnodes i (List.mem_append_left _ hi),
      NumberedList.later ho ht ss scope mid n' hscope hss hl
        fun i hi => hnodes i (List.mem_append_right _ hi)⟩

end

end

end ScopeTree

namespace Definition

open Pass

variable {d d' : Definition} {lo scope : ScopeId}

/-! ## Walking over a body -/

/-- What is new in the scopes are locals, numbered from the next number on. -/
structure Adds (d d' : Definition) : Prop where
  le : d.nextOrdinal ≤ d'.nextOrdinal
  new : ∀ j name s, (d'.scopes.scope j).get? name = some s →
    (d.scopes.scope j).get? name = some s ∨
      ∃ ordinal, s.kind = .localVar ordinal ∧ d.nextOrdinal ≤ ordinal ∧ ordinal < d'.nextOrdinal

theorem Adds.refl (d : Definition) : Adds d d := ⟨Nat.le_refl _, fun _ _ _ hs => .inl hs⟩

theorem Adds.trans {d'' : Definition} (h : Adds d d') (h' : Adds d' d'') : Adds d d'' := by
  refine ⟨Nat.le_trans h.le h'.le, fun j name s hs => ?_⟩
  rcases h'.new j name s hs with hs | ⟨ordinal, hk, hle, hlt⟩
  · rcases h.new j name s hs with hs | ⟨ordinal, hk, hle, hlt⟩
    · exact .inl hs
    · exact .inr ⟨ordinal, hk, hle, Nat.lt_of_lt_of_le hlt h'.le⟩
  · exact .inr ⟨ordinal, hk, Nat.le_trans h.le hle, hlt⟩

theorem Adds.later (h : Adds d d') (he : d.scopes.Extends d'.scopes) :
    ScopeTree.Later d.nextOrdinal d.scopes d'.scopes := by
  refine ⟨he, fun j _ name s hs => ?_⟩
  rcases h.new j name s hs with hs | ⟨ordinal, hk, hle, _⟩
  · exact .inl hs
  · exact .inr ⟨ordinal, hk, hle⟩

/-- The locals in the scopes from `lo` on have numbers below the next one. -/
def Under (lo : ScopeId) (d : Definition) : Prop :=
  ∀ j, lo ≤ j → ∀ name s ordinal, (d.scopes.scope j).get? name = some s →
    s.kind = .localVar ordinal → ordinal < d.nextOrdinal

theorem Under.adds (h : Under lo d) (ha : Adds d d') : Under lo d' := by
  intro j hj name s ordinal hs hk
  rcases ha.new j name s hs with hold | ⟨ordinal', hk', _, hlt⟩
  · exact Nat.lt_of_lt_of_le (h j hj name s ordinal hold hk) ha.le
  · rw [SymbolKind.localVar.inj (hk.symm.trans hk')]
    exact hlt

/-- A scope that was opened just now has no symbols. -/
theorem openBlock_adds {node : NodeId}
    (hd' : d' = { d with scopes := (d.scopes.addBlockScope scope node).2 })
    (hblock : d'.scopes.BlockOf scope node d.scopes.size) :
    Adds d d' ∧ d'.scopes.OpensAt scope node d.nextOrdinal d.scopes.size := by
  subst hd'
  let text := "statement block in " ++ (d.scopes.scope scope).name
  have hsize := ScopeTree.size_addScope d.scopes scope .block text
  have hself : ∀ name, ((d.scopes.addScope scope .block text).2.scope d.scopes.size).get? name =
      none := by
    intro name
    rw [ScopeTree.scope_addScope_self]
    rfl
  constructor
  · refine ⟨Nat.le_refl _, fun j name s hs => .inl ?_⟩
    have hs : ((d.scopes.addScope scope .block text).2.scope j).get? name = some s := hs
    rcases Nat.lt_trichotomy j d.scopes.size with hj | rfl | hj
    · rw [ScopeTree.scope_addScope_of_lt _ _ _ _ hj] at hs
      exact hs
    · rw [hself] at hs
      simp at hs
    · rw [ScopeTree.scope_of_size_le _ (by rw [hsize]; exact hj), ScopeTree.get?_default] at hs
      simp at hs
  · refine ⟨hblock, fun name s hs => ?_⟩
    exact absurd ((hself name).symm.trans hs) (by simp)

/-- The state after walking over the statement `s` of `scope`. -/
structure Walked (lo scope : ScopeId) (s : Stmt) (ids : List NodeId) (d d' : Definition) : Prop
    extends BodyStep lo ids d d', Adds d d' where
  sound : Sound d'
  numbered : d'.scopes.Numbered d'.types lo scope s d.nextOrdinal d'.nextOrdinal

/-- The state after walking over a branch: its scope, if it has one of its own, is open. -/
structure WalkedBranch (lo scope : ScopeId) (body : Stmt) (d d' : Definition) : Prop
    extends BodyStep lo body.ids d d', Adds d d' where
  sound : Sound d'
  branch : ∃ inner, d'.scopes.EntersAt scope body d.nextOrdinal inner ∧
    d'.scopes.Numbered d'.types lo inner body d.nextOrdinal d'.nextOrdinal

structure WalkedList (lo scope : ScopeId) (ss : List Stmt) (d d' : Definition) : Prop
    extends BodyStep lo (Stmt.idsOfList ss) d d', Adds d d' where
  sound : Sound d'
  numbered : d'.scopes.NumberedList d'.types lo scope ss d.nextOrdinal d'.nextOrdinal

/-- A declaration opens no scope. -/
theorem meets_declareLocal (hsound : Sound d) (hlo : lo ≤ scope) (hscope : HoldsLocals d scope)
    (hunder : Under lo d) (node : Node) (type : TypeExpr) (name : Ident) (init : Option Expr) :
    Meets CompileError.IsRejection (defineStmt scope (.declare node type name init)) d
      fun _ d' => Walked lo scope (.declare node type name init) [] d d' := by
  rw [defineStmt, meets_bind]
  refine meets_resolveType fun id types hr => ?_
  have hext := TypeTable.extends_resolve hr
  rw [meets_bind, meets_get, meets_bind]
  refine meets_insertSymbol fun scopes hi => ?_
  rw [meets_modify]
  have hstep := (step_withTypes hext lo).trans (step_insert hi hscope.1 hlo)
  have hi : d.scopes.insert scope name.name (.localVar d.nextOrdinal) id name.span =
      .ok scopes := hi
  have hcases : ∀ j other s, (scopes.scope j).get? other = some s →
      (d.scopes.scope j).get? other = some s ∨
        s = ⟨name.name, .localVar d.nextOrdinal, id, scope, name.span⟩ := by
    intro j other s hs
    by_cases hj : j = scope
    · subst hj
      rw [ScopeTree.get?_insert hi hscope.1] at hs
      split at hs
      · exact .inr (Option.some.inj hs).symm
      · exact .inl hs
    · rw [ScopeTree.scope_insert_of_ne hi hj] at hs
      exact .inl hs
  refine ⟨⟨⟨⟨hstep.types, hstep.scopes, hstep.below, rfl⟩, hstep.classScopes⟩,
    ScopeTree.methodScopes_insert hi, rfl, ?_⟩, ⟨Nat.le_succ _, ?_⟩, ⟨?_, ?_⟩, rfl,
    ⟨name.name, .localVar d.nextOrdinal, id, scope, name.span⟩,
    ⟨?_, rfl, TypeTable.denoted?_of_resolve hr, ?_⟩⟩
  · intro n _
    exact congrArg (OrderedMap.get? · n) (ScopeTree.blockScopes_insert hi)
  · intro j other s hs
    rcases hcases j other s hs with hold | rfl
    · exact .inl hold
    · exact .inr ⟨_, rfl, Nat.le_refl _, Nat.lt_succ_self _⟩
  · exact ScopeTree.ordered_insert hi hscope.1 hsound.ordered
  · exact hsound.symbols.insert hi hscope.1 (hscope.2 _)
  · rw [ScopeTree.get?_insert hi hscope.1, if_pos rfl]
  · intro j _ hlo other s hs hk
    rcases hcases j other s hs with hold | hnew
    · exact absurd (hunder j hlo other s _ hold hk) (Nat.lt_irrefl _)
    · exact hnew

/-- A branch is walked over in its own scope. -/
theorem meets_branch (hsound : Sound d) (hlo : lo ≤ scope) (hscope : HoldsLocals d scope)
    (hunder : Under lo d) {body : Stmt}
    (ih : ∀ (scope : ScopeId) (d : Definition), Sound d → lo ≤ scope → HoldsLocals d scope →
      Under lo d → Meets CompileError.IsRejection (defineStmt scope body) d
        fun _ d' => Walked lo scope body body.ids d d') {post : Unit → Definition → Prop}
    (hpost : ∀ d', WalkedBranch lo scope body d d' → post () d') :
    Meets CompileError.IsRejection (branchScope scope body) d fun inner t =>
      Meets CompileError.IsRejection (defineStmt inner body) t post := by
  unfold branchScope
  by_cases hd : body.isDeclaration = true
  · rw [if_pos hd]
    refine meets_openScope ?_
    have hlod : lo ≤ d.scopes.size := Nat.le_trans hlo (Nat.le_of_lt hscope.1)
    obtain ⟨hopen, hsound₁, hblock, hholds⟩ := openBlock_spec hsound hlod hscope.1 body.id rfl
    obtain ⟨hadds, hopens⟩ := openBlock_adds rfl hblock
    have hlt := Nat.lt_of_lt_of_le hscope.1 hopen.size_le
    cases body with
    | declare node type name init =>
      refine (meets_declareLocal hsound₁ hlod hholds (hunder.adds hadds) node type name
        init).mono fun _ d' h => hpost d' ?_
      refine ⟨(hopen.trans h.toBodyStep).mono ?_, hadds.trans h.toAdds, h.sound, d.scopes.size, ?_,
        h.numbered⟩
      · simp [Stmt.ids, Stmt.nodes]
      · rw [ScopeTree.EntersAt, if_pos hd]
        exact hopens.later (h.toAdds.later h.scopes) hlt (h.blockScopes _ (by simp))
    | _ => simp [Stmt.isDeclaration] at hd
  · rw [if_neg hd, meets_pure]
    refine (ih scope d hsound hlo hscope hunder).mono fun _ d' h => hpost d' ?_
    exact ⟨h.toBodyStep, h.toAdds, h.sound, scope, by rw [ScopeTree.EntersAt, if_neg hd],
      h.numbered⟩

mutual

theorem meets_defineStmt (lo : ScopeId) :
    ∀ (s : Stmt) (_ : s.ids.Nodup) (scope : ScopeId) (d : Definition), Sound d → lo ≤ scope →
      HoldsLocals d scope → Under lo d →
      Meets CompileError.IsRejection (defineStmt scope s) d fun _ d' => Walked lo scope s s.ids d d'
  | .declare node type name init, _, scope, d, hsound, hlo, hscope, hunder => by
    refine (meets_declareLocal hsound hlo hscope hunder node type name init).mono fun _ d' h => ?_
    exact ⟨h.toBodyStep.mono (by simp), h.toAdds, h.sound, h.numbered⟩
  | .block node stmts, hnodup, scope, d, hsound, hlo, hscope, hunder => by
    have hids : (Stmt.block node stmts).ids = node.id :: Stmt.idsOfList stmts := rfl
    rw [hids, List.nodup_cons] at hnodup
    rw [defineStmt, meets_bind]
    refine meets_openScope ?_
    have hlod : lo ≤ d.scopes.size := Nat.le_trans hlo (Nat.le_of_lt hscope.1)
    obtain ⟨hopen, hsound₁, hblock, hholds⟩ := openBlock_spec hsound hlod hscope.1 node.id rfl
    obtain ⟨hadds, hopens⟩ := openBlock_adds rfl hblock
    have hlt := Nat.lt_of_lt_of_le hscope.1 hopen.size_le
    refine (meets_defineStmts lo stmts hnodup.2 _ _ hsound₁ hlod hholds
      (hunder.adds hadds)).mono fun _ d' h => ?_
    refine ⟨hids ▸ hopen.trans h.toBodyStep, hadds.trans h.toAdds, h.sound, d.scopes.size, ?_,
      h.numbered⟩
    exact hopens.later (h.toAdds.later h.scopes) hlt (h.blockScopes _ hnodup.1)
  | .ifThen node condition body, hnodup, scope, d, hsound, hlo, hscope, hunder
  | .loop node condition body, hnodup, scope, d, hsound, hlo, hscope, hunder => by
    have hids : (Stmt.ifThen node condition body).ids = node.id :: body.ids := rfl
    have hnodup : (node.id :: body.ids).Nodup := hnodup
    rw [List.nodup_cons] at hnodup
    rw [defineStmt, meets_bind]
    refine meets_branch hsound hlo hscope hunder (meets_defineStmt lo body hnodup.2) fun d' h => ?_
    exact ⟨h.toBodyStep.mono fun n hn => List.mem_cons_of_mem node.id hn, h.toAdds, h.sound,
      h.branch⟩
  | .ifElse node condition thenBranch elseBranch, hnodup, scope, d, hsound, hlo, hscope,
      hunder => by
    have hids : (Stmt.ifElse node condition thenBranch elseBranch).ids =
        node.id :: (thenBranch.ids ++ elseBranch.ids) := by
      simp [Stmt.ids, Stmt.nodes, Stmt.id, Stmt.node]
    rw [hids, List.nodup_cons, List.nodup_append] at hnodup
    rw [defineStmt, meets_bind]
    simp only [meets_bind]
    refine meets_branch hsound hlo hscope hunder (meets_defineStmt lo thenBranch hnodup.2.1)
      fun d₁ h₁ => ?_
    have hscope₁ := hscope.step h₁.toGrows
    refine meets_branch h₁.sound hlo hscope₁ (hunder.adds h₁.toAdds)
      (meets_defineStmt lo elseBranch hnodup.2.2.1) fun d₂ h₂ => ?_
    refine ⟨?_, h₁.toAdds.trans h₂.toAdds, h₂.sound, d₁.nextOrdinal, ?_, h₂.branch⟩
    · rw [hids]
      exact (h₁.toBodyStep.trans h₂.toBodyStep).mono fun n hn => List.mem_cons_of_mem _ hn
    -- the locals of the first branch keep their numbers while the second is walked over
    have hlater := h₂.toAdds.later h₂.scopes
    have hblocks : ∀ i ∈ thenBranch.ids,
        d₂.scopes.blockScopes.get? i = d₁.scopes.blockScopes.get? i :=
      fun i hi => h₂.blockScopes i fun hi' => hnodup.2.2.2 i hi i hi' rfl
    exact ScopeTree.branch_later (fun inner hinner hs hsame => ScopeTree.Numbered.later
      h₁.sound.ordered h₂.types thenBranch inner _ _ hinner hs hlater hsame) h₁.branch
      (hlater.mono h₁.le) hscope₁.1 hblocks
  | .assign .., _, _, d, hsound, _, _, _ | .call .., _, _, d, hsound, _, _, _
  | .ret .., _, _, d, hsound, _, _, _ | .breakLoop _, _, _, d, hsound, _, _, _
  | .continueLoop _, _, _, d, hsound, _, _, _ => ⟨.refl lo _ d, .refl d, hsound, rfl⟩

theorem meets_defineStmts (lo : ScopeId) :
    ∀ (ss : List Stmt) (_ : (Stmt.idsOfList ss).Nodup) (scope : ScopeId) (d : Definition),
      Sound d → lo ≤ scope → HoldsLocals d scope → Under lo d →
      Meets CompileError.IsRejection (defineStmts scope ss) d
        fun _ d' => WalkedList lo scope ss d d'
  | [], _, _, d, hsound, _, _, _ => ⟨.refl lo _ d, .refl d, hsound, rfl⟩
  | s :: ss, hnodup, scope, d, hsound, hlo, hscope, hunder => by
    rw [Stmt.idsOfList_cons, List.nodup_append] at hnodup
    rw [defineStmts]
    refine (meets_defineStmt lo s hnodup.1 scope d hsound hlo hscope hunder).bind fun _ d₁ h₁ => ?_
    have hscope₁ := hscope.step h₁.toGrows
    refine (meets_defineStmts lo ss hnodup.2.1 scope d₁ h₁.sound hlo hscope₁
      (hunder.adds h₁.toAdds)).mono fun _ d₂ h₂ => ?_
    refine ⟨?_, h₁.toAdds.trans h₂.toAdds, h₂.sound, d₁.nextOrdinal, ?_, h₂.numbered⟩
    · rw [Stmt.idsOfList_cons]
      exact h₁.toBodyStep.trans h₂.toBodyStep
    · exact ScopeTree.Numbered.later h₁.sound.ordered h₂.types s scope _ _ hscope₁.1 h₁.numbered
        (h₂.toAdds.later h₂.scopes)
        fun i hi => h₂.blockScopes i fun hi' => hnodup.2.2 i hi i hi' rfl

end

end Definition

end IcLir
