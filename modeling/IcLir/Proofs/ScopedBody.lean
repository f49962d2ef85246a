import IcLir.Proofs.DefinitionStep
import IcLir.Tree.Traversal

/-
  The scopes of a method body. `Scoped t scope s` says that the tree `t` holds what statement
  `s` of scope `scope` needs: a block scope for every block and for every declaration that
  stands alone as a branch, each directly inside the scope around it, and a local variable for
  every declaration. Walking over a statement touches only the block scopes of the statement's own
  nodes (`BodyStep`).
-/

namespace IcLir

namespace Stmt

/-- The identities of a statement and the statements inside it. -/
def ids (s : Stmt) : List NodeId := s.nodes.map Stmt.id

def idsOfList (ss : List Stmt) : List NodeId := (nodesOfList ss).map Stmt.id

theorem idsOfList_cons (s : Stmt) (ss : List Stmt) :
    idsOfList (s :: ss) = s.ids ++ idsOfList ss := by
  simp [idsOfList, ids, nodesOfList]

theorem id_mem_ids (s : Stmt) : s.id ∈ s.ids := by
  cases s <;> simp [ids, nodes, Stmt.id, Stmt.node]

end Stmt

namespace ScopeTree

/-- `inner` is the scope of the block `node`, directly inside `scope`. -/
structure BlockOf (t : ScopeTree) (scope : ScopeId) (node : NodeId) (inner : ScopeId) : Prop where
  get? : t.blockScopes.get? node = some inner
  lt : inner < t.size
  kind : (t.scope inner).kind = .block
  depth : (t.scope inner).depth = (t.scope scope).depth + 1
  enclosing : (t.scope inner).enclosing = t.path scope

/-- `inner` is the scope of a branch of an if or of a loop body in `scope`. -/
def BranchOf (t : ScopeTree) (scope : ScopeId) (body : Stmt) (inner : ScopeId) : Prop :=
  if body.isDeclaration then t.BlockOf scope body.id inner else inner = scope

/-- The local `name` is declared in `scope`. -/
def DeclaresLocal (t : ScopeTree) (scope : ScopeId) (name : String) : Prop :=
  ∃ s ordinal, (t.scope scope).get? name = some s ∧ s.kind = .localVar ordinal

mutual

def Scoped (t : ScopeTree) (scope : ScopeId) : Stmt → Prop
  | .declare _ _ name _ => t.DeclaresLocal scope name.name
  | .block node stmts => ∃ inner, t.BlockOf scope node.id inner ∧ ScopedList t inner stmts
  | .ifThen _ _ body => ∃ inner, t.BranchOf scope body inner ∧ Scoped t inner body
  | .ifElse _ _ thenBranch elseBranch =>
    (∃ inner, t.BranchOf scope thenBranch inner ∧ Scoped t inner thenBranch) ∧
      ∃ inner, t.BranchOf scope elseBranch inner ∧ Scoped t inner elseBranch
  | .loop _ _ body => ∃ inner, t.BranchOf scope body inner ∧ Scoped t inner body
  | .assign .. => True
  | .call .. => True
  | .ret .. => True
  | .breakLoop _ => True
  | .continueLoop _ => True

def ScopedList (t : ScopeTree) (scope : ScopeId) : List Stmt → Prop
  | [] => True
  | s :: ss => Scoped t scope s ∧ ScopedList t scope ss

end

theorem BlockOf.extend {t t' : ScopeTree} {scope inner : ScopeId} {node : NodeId}
    (h : t.BlockOf scope node inner) (he : t.Extends t') (hscope : scope < t.size)
    (hnode : t'.blockScopes.get? node = t.blockScopes.get? node) :
    t'.BlockOf scope node inner where
  get? := hnode.trans h.get?
  lt := Nat.lt_of_lt_of_le h.lt he.size_le
  kind := (he.kind inner h.lt).trans h.kind
  depth := by rw [he.depth inner h.lt, he.depth scope hscope]; exact h.depth
  enclosing := by rw [he.enclosing inner h.lt, he.path_eq hscope]; exact h.enclosing

end ScopeTree

namespace Definition

open Pass

/-- A step of a body: beside the scopes from `k` on it changes only the block scopes of the
    nodes `ids`. -/
structure BodyStep (k : ScopeId) (ids : List NodeId) (d d' : Definition) : Prop
    extends Step k d d' where
  methodScopes : d'.scopes.methodScopes = d.scopes.methodScopes
  entries : d'.entries = d.entries
  blockScopes : ∀ n, n ∉ ids → d'.scopes.blockScopes.get? n = d.scopes.blockScopes.get? n

namespace BodyStep

variable {k : ScopeId} {ids ids' : List NodeId} {d d' d'' : Definition}

theorem refl (k : ScopeId) (ids : List NodeId) (d : Definition) : BodyStep k ids d d :=
  ⟨.refl k d, rfl, rfl, fun _ _ => rfl⟩

theorem trans (h : BodyStep k ids d d') (h' : BodyStep k ids' d' d'') :
    BodyStep k (ids ++ ids') d d'' := by
  refine ⟨h.toStep.trans h'.toStep, h'.methodScopes.trans h.methodScopes,
    h'.entries.trans h.entries, ?_⟩
  intro n hn
  rw [List.mem_append, not_or] at hn
  exact (h'.blockScopes n hn.2).trans (h.blockScopes n hn.1)

theorem mono (h : BodyStep k ids d d') (hsub : ∀ n ∈ ids, n ∈ ids') : BodyStep k ids' d d' :=
  { h with blockScopes := fun n hn => h.blockScopes n fun hmem => hn (hsub n hmem) }

theorem size_le (h : BodyStep k ids d d') : d.scopes.size ≤ d'.scopes.size := h.scopes.size_le

end BodyStep

/-! ## Opening a scope -/

/-- Locals may be declared in `scope`. -/
def HoldsLocals (d : Definition) (scope : ScopeId) : Prop :=
  scope < d.scopes.size ∧ ∀ n, (d.scopes.scope scope).kind.Admits (.localVar n)

theorem HoldsLocals.step {k scope : ScopeId} {d d' : Definition} (h : HoldsLocals d scope)
    (hs : Grows k d d') : HoldsLocals d' scope := by
  refine ⟨Nat.lt_of_lt_of_le h.1 hs.scopes.size_le, ?_⟩
  intro n
  rw [hs.scopes.kind scope h.1]
  exact h.2 n

/-- Opening the scope of a block. -/
theorem openBlock_spec {d d' : Definition} (hsound : Sound d) {k scope : ScopeId}
    (hk : k ≤ d.scopes.size) (hscope : scope < d.scopes.size) (node : NodeId)
    (hd' : d' = { d with scopes := (d.scopes.addBlockScope scope node).2 }) :
    BodyStep k [node] d d' ∧ Sound d' ∧ d'.scopes.BlockOf scope node d.scopes.size ∧
      HoldsLocals d' d.scopes.size := by
  subst hd'
  let name := "statement block in " ++ (d.scopes.scope scope).name
  have hlt : d.scopes.size < (d.scopes.addScope scope .block name).2.size := by
    rw [ScopeTree.size_addScope]
    exact Nat.lt_succ_self _
  have hext : d.scopes.Extends (d.scopes.addBlockScope scope node).2 :=
    (ScopeTree.extends_addScope d.scopes scope .block name).of_scopes_eq rfl
  have hself := ScopeTree.scope_addScope_self d.scopes scope .block name
  refine ⟨⟨⟨⟨.refl _, hext, ?_, rfl⟩, rfl⟩, rfl, rfl, ?_⟩, ⟨?_, ?_⟩, ⟨?_, hlt, ?_, ?_, ?_⟩, hlt, ?_⟩
  · intro id hid
    exact ScopeTree.scope_addScope_of_lt d.scopes scope .block name (Nat.lt_of_lt_of_le hid hk)
  · intro n hn
    exact OrderedMap.get?_insert_of_ne _ _ (by simpa using hn)
  · exact ScopeTree.ordered_addScope d.scopes scope .block name hsound.ordered hscope
  · exact (hsound.symbols.addScope scope .block name).of_scopes_eq rfl
  · exact OrderedMap.get?_insert_self ..
  · exact congrArg (·.kind) hself
  · have hdepth := ScopeTree.scope_addScope_of_lt d.scopes scope .block name hscope
    exact (congrArg (·.depth) hself).trans (congrArg (· + 1) (congrArg (·.depth) hdepth).symm)
  · have hpath := hext.path_eq hscope
    exact (congrArg Scope.enclosing hself).trans hpath.symm
  · intro n
    have hkind : ((d.scopes.addBlockScope scope node).2.scope d.scopes.size).kind = .block :=
      congrArg (·.kind) hself
    rw [hkind]
    rfl

end Definition

end IcLir
