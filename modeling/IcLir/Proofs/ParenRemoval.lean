import IcLir.Proofs.HasType
import IcLir.Proofs.ProgramScopes
import IcLir.Scope.Text

/-
  Programs without their parentheses. `Program.withoutParens r p` is `p` with all parentheses
  taken away, and with new numbers, given by `r`, for the nodes that are left. To compare what
  becomes of the two programs: `Renumbered` tables say the same about every node that is left, and
  with `Pass.Tracks rel same x y` the pass `y` goes on as long as `x` does.
-/

namespace IcLir

/-- New numbers for the nodes of a program. -/
structure Renumbering where
  methods : NodeId → NodeId
  stmts : NodeId → NodeId
  exprs : NodeId → NodeId

/-- All nodes keep their numbers. -/
def Renumbering.same : Renumbering := ⟨id, id, id⟩

def Node.renumber (f : NodeId → NodeId) (n : Node) : Node := ⟨f n.id, n.span⟩

/-! ## Trees -/

namespace Expr

def isParen : Expr → Bool
  | .paren .. => true
  | _ => false

mutual

def withoutParens (r : Renumbering) : Expr → Expr
  | .literal n value => .literal (n.renumber r.exprs) value
  | .var n name => .var (n.renumber r.exprs) name
  | .field n object name => .field (n.renumber r.exprs) (withoutParens r object) name
  | .index n array i =>
    .index (n.renumber r.exprs) (withoutParens r array) (withoutParens r i)
  | .staticCall n className method args =>
    .staticCall (n.renumber r.exprs) className method (withoutParensOfList r args)
  | .ownCall n method args =>
    .ownCall (n.renumber r.exprs) method (withoutParensOfList r args)
  | .methodCall n receiver method args =>
    .methodCall (n.renumber r.exprs) (withoutParens r receiver) method
      (withoutParensOfList r args)
  | .this n => .this (n.renumber r.exprs)
  | .newObject n className => .newObject (n.renumber r.exprs) className
  | .newArray n element size => .newArray (n.renumber r.exprs) element (withoutParens r size)
  | .length n array => .length (n.renumber r.exprs) (withoutParens r array)
  | .binary n op left right =>
    .binary (n.renumber r.exprs) op (withoutParens r left) (withoutParens r right)
  | .unary n op operand => .unary (n.renumber r.exprs) op (withoutParens r operand)
  | .paren _ inner => withoutParens r inner

def withoutParensOfList (r : Renumbering) : List Expr → List Expr
  | [] => []
  | e :: es => withoutParens r e :: withoutParensOfList r es

end

section

variable (r : Renumbering)

theorem length_withoutParensOfList (es : List Expr) :
    (withoutParensOfList r es).length = es.length := by
  induction es with
  | nil => rfl
  | cons e es ih => rw [withoutParensOfList, List.length_cons, List.length_cons, ih]

theorem isLocation_withoutParens {e : Expr} (h : e.isLocation = true) :
    (e.withoutParens r).isLocation = true := by
  cases e with
  | var | field | index => rfl
  | _ => cases h

theorem isCall_withoutParens {e : Expr} (h : e.isCall = true) :
    (e.withoutParens r).isCall = true := by
  cases e with
  | staticCall | ownCall | methodCall => rfl
  | _ => cases h

/-- Parentheses weigh nothing. -/
theorem weight_withoutParens : (e : Expr) → (e.withoutParens r).weight = e.weight
  | .literal .. => rfl
  | .var .. => rfl
  | .this _ => rfl
  | .newObject .. => rfl
  | .staticCall .. => rfl
  | .ownCall .. => rfl
  | .methodCall .. => rfl
  | .field _ object _ => weight_withoutParens object
  | .length _ array => weight_withoutParens array
  | .newArray _ _ size => weight_withoutParens size
  | .unary _ _ operand => weight_withoutParens operand
  | .paren _ inner => weight_withoutParens inner
  | .index _ array i => by
    rw [withoutParens, weight, weight, weight_withoutParens array, weight_withoutParens i]
  | .binary _ _ left right => by
    rw [withoutParens, weight, weight, weight_withoutParens left, weight_withoutParens right]

mutual

theorem ids_withoutParens (e : Expr) :
    (e.withoutParens r).ids = ((e.nodes.filter (!·.isParen)).map id).map r.exprs := by
  match e with
  | .literal .. | .var .. | .this _ | .newObject .. => rfl
  | .field _ e _ | .length _ e | .newArray _ _ e | .unary _ _ e =>
    simp [withoutParens, nodes, isParen, id, node, Node.renumber, ids_withoutParens e]
  | .paren _ e => simp [withoutParens, nodes, isParen, ids_withoutParens e]
  | .index _ e e' | .binary _ _ e e' =>
    simp [withoutParens, nodes, isParen, id, node, Node.renumber, ids_withoutParens e,
      ids_withoutParens e']
  | .staticCall _ _ _ es | .ownCall _ _ es =>
    simp [withoutParens, nodes, isParen, id, node, Node.renumber, idsOfList_withoutParens es]
  | .methodCall _ e _ es =>
    simp [withoutParens, nodes, isParen, id, node, Node.renumber, ids_withoutParens e,
      idsOfList_withoutParens es]

theorem idsOfList_withoutParens (es : List Expr) :
    idsOfList (withoutParensOfList r es) =
      (((nodesOfList es).filter (!·.isParen)).map id).map r.exprs := by
  match es with
  | [] => rfl
  | e :: es =>
    simp [withoutParensOfList, nodesOfList, ids_withoutParens e, idsOfList_withoutParens es]

end

end

end Expr

namespace Stmt

mutual

def withoutParens (r : Renumbering) : Stmt → Stmt
  | .assign n target value =>
    .assign (n.renumber r.stmts) (target.withoutParens r) (value.withoutParens r)
  | .call n e => .call (n.renumber r.stmts) (e.withoutParens r)
  | .ret n value => .ret (n.renumber r.stmts) (value.map (Expr.withoutParens r))
  | .ifThen n condition body =>
    .ifThen (n.renumber r.stmts) (condition.withoutParens r) (withoutParens r body)
  | .ifElse n condition thenBranch elseBranch =>
    .ifElse (n.renumber r.stmts) (condition.withoutParens r) (withoutParens r thenBranch)
      (withoutParens r elseBranch)
  | .loop n condition body =>
    .loop (n.renumber r.stmts) (condition.withoutParens r) (withoutParens r body)
  | .breakLoop n => .breakLoop (n.renumber r.stmts)
  | .continueLoop n => .continueLoop (n.renumber r.stmts)
  | .block n stmts => .block (n.renumber r.stmts) (withoutParensOfList r stmts)
  | .declare n type name init =>
    .declare (n.renumber r.stmts) type name (init.map (Expr.withoutParens r))

def withoutParensOfList (r : Renumbering) : List Stmt → List Stmt
  | [] => []
  | s :: ss => withoutParens r s :: withoutParensOfList r ss

end

section

variable (r : Renumbering)

theorem id_withoutParens (s : Stmt) : (s.withoutParens r).id = r.stmts s.id := by
  cases s <;> rfl

theorem isDeclaration_withoutParens (s : Stmt) :
    (s.withoutParens r).isDeclaration = s.isDeclaration := by
  cases s <;> rfl

theorem isReturn_withoutParens (s : Stmt) : (s.withoutParens r).isReturn = s.isReturn := by
  cases s <;> rfl

theorem withoutParensOfList_eq_map (ss : List Stmt) :
    withoutParensOfList r ss = ss.map (withoutParens r) := by
  induction ss with
  | nil => rfl
  | cons s ss ih => rw [withoutParensOfList, List.map_cons, ih]

mutual

theorem nodes_withoutParens (s : Stmt) :
    (s.withoutParens r).nodes.map id = (s.nodes.map id).map r.stmts := by
  match s with
  | .assign .. | .call .. | .ret .. | .breakLoop _ | .continueLoop _ | .declare .. => rfl
  | .ifThen _ _ s | .loop _ _ s =>
    simp [withoutParens, nodes, id, node, Node.renumber, nodes_withoutParens s]
  | .ifElse _ _ s s' =>
    simp [withoutParens, nodes, id, node, Node.renumber, nodes_withoutParens s,
      nodes_withoutParens s']
  | .block _ ss =>
    simp [withoutParens, nodes, id, node, Node.renumber, nodesOfList_withoutParens ss]

theorem nodesOfList_withoutParens (ss : List Stmt) :
    (nodesOfList (withoutParensOfList r ss)).map id = ((nodesOfList ss).map id).map r.stmts := by
  match ss with
  | [] => rfl
  | s :: ss =>
    simp [withoutParensOfList, nodesOfList, nodes_withoutParens s, nodesOfList_withoutParens ss]

end

theorem ids_of_value (value : Option Expr) :
    (((value.map (Expr.withoutParens r)).map Expr.nodes).getD []).map Expr.id =
      (((((value.map Expr.nodes).getD []).filter (!·.isParen)).map Expr.id)).map r.exprs := by
  cases value with
  | none => rfl
  | some e => exact Expr.ids_withoutParens r e

mutual

theorem exprs_withoutParens (s : Stmt) :
    (s.withoutParens r).exprs.map Expr.id =
      ((s.exprs.filter (!·.isParen)).map Expr.id).map r.exprs := by
  have hids := Expr.ids_withoutParens r
  unfold Expr.ids at hids
  match s with
  | .breakLoop _ | .continueLoop _ => rfl
  | .ret _ value | .declare _ _ _ value => exact ids_of_value r value
  | .call _ e => exact hids e
  | .assign _ e e' => simp [withoutParens, exprs, hids e, hids e']
  | .ifThen _ e s | .loop _ e s => simp [withoutParens, exprs, hids e, exprs_withoutParens s]
  | .ifElse _ e s s' =>
    simp [withoutParens, exprs, hids e, exprs_withoutParens s, exprs_withoutParens s']
  | .block _ ss => exact exprsOfList_withoutParens ss

theorem exprsOfList_withoutParens (ss : List Stmt) :
    (exprsOfList (withoutParensOfList r ss)).map Expr.id =
      (((exprsOfList ss).filter (!·.isParen)).map Expr.id).map r.exprs := by
  match ss with
  | [] => rfl
  | s :: ss =>
    simp [withoutParensOfList, exprsOfList, exprs_withoutParens s, exprsOfList_withoutParens ss]

end

end

end Stmt

def MethodDecl.withoutParens (r : Renumbering) (m : MethodDecl) : MethodDecl :=
  { m with id := r.methods m.id, body := Stmt.withoutParensOfList r m.body }

def ClassDecl.withoutParens (r : Renumbering) (c : ClassDecl) : ClassDecl :=
  { c with methods := c.methods.map (·.withoutParens r) }

@[simp] theorem ClassDecl.name_withoutParens (r : Renumbering) (c : ClassDecl) :
    (c.withoutParens r).name = c.name := rfl

@[simp] theorem ClassDecl.superclass_withoutParens (r : Renumbering) (c : ClassDecl) :
    (c.withoutParens r).superclass = c.superclass := rfl

/-- The methods with bodies to look at are the same. -/
theorem ClassDecl.bodies_withoutParens (r : Renumbering) (c : ClassDecl) :
    (c.withoutParens r).methods.filter (·.kind ≠ .library) =
      (c.methods.filter (·.kind ≠ .library)).map (·.withoutParens r) := by
  rw [ClassDecl.withoutParens, List.filter_map]
  rfl

def Entry.withoutParens (r : Renumbering) (e : Entry) : Entry :=
  ⟨e.owner, e.method.withoutParens r⟩

namespace Program

/-- The program with its parentheses taken away. -/
def withoutParens (r : Renumbering) (p : Program) : Program :=
  ⟨p.classes.map (·.withoutParens r)⟩

variable (r : Renumbering) (p : Program)

theorem methods_withoutParens :
    (p.withoutParens r).methods = p.methods.map (·.withoutParens r) := by
  simp [methods, withoutParens, ClassDecl.withoutParens, List.flatMap_map, List.map_flatMap]

theorem stmts_withoutParens :
    (p.withoutParens r).stmts.map Stmt.id = (p.stmts.map Stmt.id).map r.stmts := by
  have hbody : ∀ m : MethodDecl, (Stmt.nodesOfList (m.withoutParens r).body).map Stmt.id =
      ((Stmt.nodesOfList m.body).map Stmt.id).map r.stmts := fun m =>
    Stmt.nodesOfList_withoutParens r m.body
  rw [stmts, stmts, methods_withoutParens, List.flatMap_map, List.map_flatMap, List.map_flatMap,
    List.map_flatMap]
  simp only [hbody]

theorem exprs_withoutParens :
    (p.withoutParens r).exprs.map Expr.id =
      ((p.exprs.filter (!·.isParen)).map Expr.id).map r.exprs := by
  have hbody : ∀ m : MethodDecl, (Stmt.exprsOfList (m.withoutParens r).body).map Expr.id =
      (((Stmt.exprsOfList m.body).filter (!·.isParen)).map Expr.id).map r.exprs := fun m =>
    Stmt.exprsOfList_withoutParens r m.body
  rw [exprs, exprs, methods_withoutParens, List.flatMap_map, List.map_flatMap,
    List.filter_flatMap, List.map_flatMap, List.map_flatMap]
  simp only [hbody]

/-- If all nodes keep their numbers, those that are left have different ones. -/
theorem DistinctNodes.withoutParens {p : Program} (h : p.DistinctNodes) :
    (p.withoutParens .same).DistinctNodes where
  methods := by
    rw [methods_withoutParens, List.map_map]
    exact h.methods
  stmts := by
    rw [stmts_withoutParens]
    simpa [Renumbering.same] using h.stmts
  exprs := by
    rw [exprs_withoutParens]
    simpa [Renumbering.same] using h.exprs.sublist (List.filter_sublist.map _)

end Program

/-! ## Numbers and tables -/

namespace Program

def IsMethodId (p : Program) (i : NodeId) : Prop := ∃ m ∈ p.methods, m.id = i

def IsStmtId (p : Program) (i : NodeId) : Prop := ∃ s ∈ p.stmts, s.id = i

/-- The number of an expression that is left. -/
def IsKeptId (p : Program) (i : NodeId) : Prop :=
  ∃ e ∈ p.exprs, e.isParen = false ∧ e.id = i

end Program

/-- No two nodes that are left become one. -/
structure Renumbering.Faithful (r : Renumbering) (p : Program) : Prop where
  methods : ∀ i j, p.IsMethodId i → p.IsMethodId j → r.methods i = r.methods j → i = j
  stmts : ∀ i j, p.IsStmtId i → p.IsStmtId j → r.stmts i = r.stmts j → i = j
  exprs : ∀ i j, p.IsKeptId i → p.IsKeptId j → r.exprs i = r.exprs j → i = j
  parens : ∀ e ∈ p.exprs, e.isParen = true → ¬ p.IsKeptId e.id

/-- A map that makes no duplicates in a list is injective on it. -/
theorem eq_of_nodup_map_map {α : Type} {f : α → NodeId} {g : NodeId → NodeId} {l : List α}
    (h : ((l.map f).map g).Nodup) {a b : α} (ha : a ∈ l) (hb : b ∈ l) (hg : g (f a) = g (f b)) :
    f a = f b := by
  rw [List.map_map] at h
  exact congrArg f (List.inj_on_of_nodup_map h ha hb hg)

theorem Renumbering.faithful {r : Renumbering} {p : Program} (hp : p.DistinctNodes)
    (hq : (p.withoutParens r).DistinctNodes) : r.Faithful p where
  methods := by
    rintro _ _ ⟨m, hm, rfl⟩ ⟨m', hm', rfl⟩ heq
    have hnodup := hq.methods
    rw [Program.methods_withoutParens, List.map_map] at hnodup
    exact congrArg MethodDecl.id (List.inj_on_of_nodup_map hnodup hm hm' heq)
  stmts := by
    rintro _ _ ⟨s, hs, rfl⟩ ⟨s', hs', rfl⟩ heq
    have hnodup := hq.stmts
    rw [Program.stmts_withoutParens] at hnodup
    exact eq_of_nodup_map_map hnodup hs hs' heq
  exprs := by
    rintro _ _ ⟨e, he, hkept, rfl⟩ ⟨e', he', hkept', rfl⟩ heq
    have hnodup := hq.exprs
    rw [Program.exprs_withoutParens] at hnodup
    exact eq_of_nodup_map_map hnodup (List.mem_filter.mpr ⟨he, by simp [hkept]⟩)
      (List.mem_filter.mpr ⟨he', by simp [hkept']⟩) heq
  parens := by
    rintro e he hparen ⟨e', he', hkept, heq⟩
    obtain rfl := List.inj_on_of_nodup_map hp.exprs he he' heq.symm
    rw [hparen] at hkept
    cases hkept

namespace OrderedMap

variable {α : Type} {used : NodeId → Prop} {f : NodeId → NodeId} {m m' : OrderedMap NodeId α}

/-- The second table has at the new numbers what the first one has at those in use. -/
def Renumbered (used : NodeId → Prop) (f : NodeId → NodeId) (m m' : OrderedMap NodeId α) : Prop :=
  ∀ i, used i → m'.get? (f i) = m.get? i

theorem Renumbered.insert (h : Renumbered used f m m')
    (hf : ∀ i j, used i → used j → f i = f j → i = j) {k : NodeId} (hk : used k) (v : α) :
    Renumbered used f (m.insert k v) (m'.insert (f k) v) := by
  intro i hi
  by_cases heq : i = k
  · subst heq
    rw [get?_insert_self, get?_insert_self]
  · rw [get?_insert_of_ne _ _ heq, get?_insert_of_ne _ _ fun hfi => heq (hf i k hi hk hfi)]
    exact h i hi

theorem Renumbered.insert_left (h : Renumbered used f m m') {k : NodeId} (hk : ¬ used k) (v : α) :
    Renumbered used f (m.insert k v) m' := by
  intro i hi
  rw [get?_insert_of_ne]
  · exact h i hi
  · rintro rfl
    exact hk hi

end OrderedMap

namespace ScopeTree

/-- The trees have the same scopes, under the new numbers of methods and statements. -/
structure Renumbered (r : Renumbering) (p : Program) (t t' : ScopeTree) : Prop where
  scopes : t'.scopes = t.scopes
  classScopes : t'.classScopes = t.classScopes
  methodScopes : t.methodScopes.Renumbered p.IsMethodId r.methods t'.methodScopes
  blockScopes : t.blockScopes.Renumbered p.IsStmtId r.stmts t'.blockScopes

namespace Renumbered

variable {r : Renumbering} {p : Program} {t t' : ScopeTree}

theorem scope_eq (h : t.Renumbered r p t') : t'.scope = t.scope := by
  funext id
  rw [scope, scope, scope?, scope?, h.scopes]

theorem path_eq (h : t.Renumbered r p t') : t'.path = t.path := by
  funext id
  rw [path, path, h.scope_eq]

theorem depth_eq (h : t.Renumbered r p t') : t'.depth = t.depth := by
  funext id
  rw [depth, depth, h.scope_eq]

theorem classOf?_eq (h : t.Renumbered r p t') : t'.classOf? = t.classOf? := by
  funext id
  rw [classOf?, classOf?, h.scope_eq]

theorem lookupMember_eq (h : t.Renumbered r p t') : t'.lookupMember = t.lookupMember := by
  funext id name
  rw [lookupMember, lookupMember, h.path_eq, h.scope_eq]

theorem outward_eq (h : t.Renumbered r p t') (ids : List ScopeId) :
    t'.outward ids = t.outward ids := by
  induction ids with
  | nil => rfl
  | cons id ids ih => rw [outward, outward, h.scope_eq, ih]

theorem lookupVisible_eq (h : t.Renumbered r p t') : t'.lookupVisible = t.lookupVisible := by
  funext id name visible
  rw [lookupVisible, lookupVisible, h.path_eq, h.outward_eq, h.scope_eq]

theorem render_eq (h : t.Renumbered r p t') (types : TypeTable) :
    t'.render types = t.render types := by
  have hparent : t'.parent? = t.parent? := by
    funext id
    rw [parent?, parent?, h.scope_eq]
  have hsize : t'.size = t.size := congrArg List.length h.scopes
  have hparagraph : t'.paragraph = t.paragraph := by
    funext types id
    rw [paragraph, paragraph, children, children, hparent, hsize, h.scope_eq]
  rw [render, render, preorder, preorder, subtrees, subtrees, hparent, hsize, hparagraph]

/-! What the definition stage does with the trees. -/

theorem insert (h : t.Renumbered r p t') {id : ScopeId} {name : String} {kind : SymbolKind}
    {type : TypeId} {span : Span} {u : ScopeTree} (hu : t.insert id name kind type span = .ok u) :
    ∃ u', t'.insert id name kind type span = .ok u' ∧ u.Renumbered r p u' := by
  unfold ScopeTree.insert at hu ⊢
  rw [h.scope_eq]
  split at hu
  · cases hu
  · next hnew =>
    obtain rfl := Except.ok.inj hu
    rw [if_neg hnew]
    exact ⟨_, rfl, by rw [h.scopes], h.classScopes, h.methodScopes, h.blockScopes⟩

theorem addScope (h : t.Renumbered r p t') (parent : ScopeId) (kind : ScopeKind) (name : String) :
    (t'.addScope parent kind name).1 = (t.addScope parent kind name).1 ∧
      (t.addScope parent kind name).2.Renumbered r p (t'.addScope parent kind name).2 := by
  unfold ScopeTree.addScope
  rw [h.path_eq, h.scope_eq]
  exact ⟨congrArg List.length h.scopes, by rw [h.scopes], h.classScopes, h.methodScopes,
    h.blockScopes⟩

theorem addClassScope (h : t.Renumbered r p t') (type : TypeId) (name : String)
    (superclass : Option TypeId) :
    (t'.addClassScope type name superclass).1 = (t.addClassScope type name superclass).1 ∧
      (t.addClassScope type name superclass).2.Renumbered r p
        (t'.addClassScope type name superclass).2 := by
  unfold ScopeTree.addClassScope
  rw [h.classScopes]
  obtain ⟨hid, hadd⟩ := h.addScope ((superclass.bind t.classScopes.get?).getD global)
    (.classScope type) name
  dsimp only
  rw [hid]
  exact ⟨rfl, hadd.scopes, by rw [hadd.classScopes], hadd.methodScopes, hadd.blockScopes⟩

theorem addMethodScope (h : t.Renumbered r p t') (hr : r.Faithful p) (parent : ScopeId)
    {node : NodeId} (hnode : p.IsMethodId node) (name : String) (isStatic : Bool)
    (result : TypeId) :
    (t'.addMethodScope parent (r.methods node) name isStatic result).1 =
        (t.addMethodScope parent node name isStatic result).1 ∧
      (t.addMethodScope parent node name isStatic result).2.Renumbered r p
        (t'.addMethodScope parent (r.methods node) name isStatic result).2 := by
  unfold ScopeTree.addMethodScope
  obtain ⟨hid, hadd⟩ := h.addScope parent (.method isStatic result) name
  dsimp only
  rw [hid]
  exact ⟨rfl, hadd.scopes, hadd.classScopes, hadd.methodScopes.insert hr.methods hnode _,
    hadd.blockScopes⟩

theorem addBlockScope (h : t.Renumbered r p t') (hr : r.Faithful p) (parent : ScopeId)
    {node : NodeId} (hnode : p.IsStmtId node) :
    (t'.addBlockScope parent (r.stmts node)).1 = (t.addBlockScope parent node).1 ∧
      (t.addBlockScope parent node).2.Renumbered r p
        (t'.addBlockScope parent (r.stmts node)).2 := by
  unfold ScopeTree.addBlockScope
  rw [h.scope_eq]
  obtain ⟨hid, hadd⟩ :=
    h.addScope parent .block ("statement block in " ++ (t.scope parent).name)
  dsimp only
  rw [hid]
  exact ⟨rfl, hadd.scopes, hadd.classScopes, hadd.methodScopes,
    hadd.blockScopes.insert hr.stmts hnode _⟩

end Renumbered

end ScopeTree

/-! ## Passes in step -/

namespace Pass

variable {σ τ α β γ δ : Type} {rel : σ → τ → Prop} {same : α → β → Prop}

variable {f : γ → Pass σ α} {l : List γ}

/-- Whenever `x` gives a result, `y` gives the like from a like state. -/
def Tracks (rel : σ → τ → Prop) (same : α → β → Prop) (x : Pass σ α) (y : Pass τ β) : Prop :=
  ∀ s t, rel s t → ∀ a s', x s = .ok a s' → ∃ b t', y t = .ok b t' ∧ same a b ∧ rel s' t'

theorem tracks_pure {a : α} {b : β} (h : same a b) :
    Tracks rel same (pure a : Pass σ α) (pure b : Pass τ β) := by
  intro s t hst a' s' hx
  obtain ⟨rfl, rfl⟩ := EStateM.Result.ok.inj hx
  exact ⟨b, t, rfl, h, hst⟩

theorem Tracks.bind {like : γ → δ → Prop} {x : Pass σ γ} {y : Pass τ δ} {g : δ → Pass τ β}
    (hx : Tracks rel like x y) (hf : ∀ c d, like c d → Tracks rel same (f c) (g d)) :
    Tracks rel same (x >>= f) (y >>= g) := by
  intro s t hst a s' h
  obtain ⟨c, s₁, hc, ha⟩ := bind_eq_ok.mp h
  obtain ⟨d, t₁, hd, hlike, hst₁⟩ := hx s t hst c s₁ hc
  obtain ⟨b, t', hb, hsame, hst'⟩ := hf c d hlike s₁ t₁ hst₁ a s' ha
  exact ⟨b, t', bind_eq_ok.mpr ⟨d, t₁, hd, hb⟩, hsame, hst'⟩

/-- The usual case: the parts give the same result. -/
theorem Tracks.bind_eq {x : Pass σ γ} {y : Pass τ γ} {g : γ → Pass τ β} (hx : Tracks rel Eq x y)
    (hf : ∀ c, Tracks rel same (f c) (g c)) : Tracks rel same (x >>= f) (y >>= g) :=
  hx.bind fun c _ hcd => hcd ▸ hf c

theorem tracks_get_bind {f : σ → Pass σ α} {g : τ → Pass τ β}
    (h : ∀ s t, rel s t → Tracks rel same (f s) (g t)) :
    Tracks rel same (get >>= f) (get >>= g) := fun s t hst => h s t hst s t hst

theorem tracks_modify {f : σ → σ} {g : τ → τ} (h : ∀ s t, rel s t → rel (f s) (g t)) :
    Tracks rel Eq (modify f : Pass σ PUnit) (modify g : Pass τ PUnit) := by
  intro s t hst a s' hx
  obtain ⟨rfl, rfl⟩ := EStateM.Result.ok.inj hx
  exact ⟨_, g t, rfl, rfl, h s t hst⟩

theorem tracks_throw (e : CompileError) (y : Pass τ β) :
    Tracks rel same (throw e : Pass σ α) y := by
  intro s t hst a s' hx
  cases hx

theorem tracks_require {holds holds' : Bool} {cause cause' : Cause} {token token' : String}
    {span span' : Span} (h : holds = true → holds' = true) :
    Tracks rel Eq (require holds cause token span) (require holds' cause' token' span') := by
  cases holds with
  | false => exact tracks_throw _ _
  | true =>
    rw [h rfl]
    exact tracks_pure rfl

theorem tracks_promised {value : Option α} {value' : Option β} {defect defect' : Defect}
    (h : ∀ a, value = some a → ∃ b, value' = some b ∧ same a b) :
    Tracks rel same (promised value defect) (promised value' defect') := by
  cases value with
  | none => exact tracks_throw _ _
  | some a =>
    obtain ⟨b, rfl, hab⟩ := h a rfl
    exact tracks_pure hab

theorem tracks_promised_eq {value value' : Option α} {defect defect' : Defect}
    (h : value' = value) : Tracks rel Eq (promised value defect) (promised value' defect') :=
  tracks_promised fun a ha => ⟨a, h.trans ha, rfl⟩

theorem tracks_set {s : σ} {t : τ} (h : rel s t) :
    Tracks rel Eq (set s : Pass σ PUnit) (set t : Pass τ PUnit) := by
  intro _ _ _ a s' hx
  obtain ⟨rfl, rfl⟩ := EStateM.Result.ok.inj hx
  exact ⟨_, t, rfl, rfl, h⟩

theorem tracks_forM {f : γ → Pass σ PUnit} {g : γ → Pass τ PUnit}
    (h : ∀ c ∈ l, Tracks rel Eq (f c) (g c)) : Tracks rel Eq (l.forM f) (l.forM g) := by
  induction l with
  | nil => exact tracks_pure rfl
  | cons c l ih =>
    exact (h c List.mem_cons_self).bind_eq fun _ => ih fun d hd =>
      h d (List.mem_cons_of_mem c hd)

theorem tracks_mapM {g : γ → Pass τ α} (h : ∀ c ∈ l, Tracks rel Eq (f c) (g c)) :
    Tracks rel Eq (l.mapM f) (l.mapM g) := by
  induction l with
  | nil => exact tracks_pure rfl
  | cons c l ih =>
    rw [List.mapM_cons, List.mapM_cons]
    refine (h c List.mem_cons_self).bind_eq fun a => ?_
    exact (ih fun d hd => h d (List.mem_cons_of_mem c hd)).bind_eq fun as => tracks_pure rfl

theorem tracks_forM_map {f : γ → Pass σ PUnit} {g : δ → Pass τ PUnit} (k : γ → δ)
    (h : ∀ c ∈ l, Tracks rel Eq (f c) (g (k c))) : Tracks rel Eq (l.forM f) ((l.map k).forM g) := by
  have hmap : (l.map k).forM g = l.forM fun c => g (k c) := List.forM_map
  rw [hmap]
  exact tracks_forM h

theorem tracks_mapM_map {g : δ → Pass τ α} (k : γ → δ)
    (h : ∀ c ∈ l, Tracks rel Eq (f c) (g (k c))) :
    Tracks rel Eq (l.mapM f) ((l.map k).mapM g) := by
  rw [List.mapM_map]
  exact tracks_mapM h

end Pass

end IcLir
