import IcLir.Proofs.ScopeShape
import IcLir.Scope.Graph

/-
  The tree in the graph of scopes. However scopes are opened and names declared, the edges of the
  graph are those of a scope tree that was built in the same way (`Represents`), whatever lawful
  library keeps the graph. So each scope but the global one has one edge into it, from an older
  scope, the loops of the lookups end, with the answers of the tree (`walk_eq`), and the recursion
  that writes the tables ends, with the text of the tree (`writeScope_eq`).
-/

namespace IcLir

namespace ScopeGraph

open DirectedGraph LawfulDirectedGraph

variable {G : Type → Type} [DirectedGraph G] {g g' : ScopeGraph G} {t : ScopeTree}

/-- What is done to the graph in one step: a scope is opened inside one that is there, or a name
    is declared, whether or not that is refused. -/
inductive Edit : ScopeGraph G → ScopeGraph G → Prop where
  | openClass {g : ScopeGraph G} (type : TypeId) (name : String) (superclass : Option TypeId) :
    Edit g (g.addClassScope type name superclass).2
  | openMethod {g : ScopeGraph G} {parent : ScopeId} (node : NodeId) (name : String)
      (isStatic : Bool) (result : TypeId) :
    parent < g.size → Edit g (g.addMethodScope parent node name isStatic result).2
  | openBlock {g : ScopeGraph G} {parent : ScopeId} (node : NodeId) :
    parent < g.size → Edit g (g.addBlockScope parent node).2
  | declare {g g' : ScopeGraph G} {id : ScopeId} {name : String} {kind : SymbolKind}
      {type : TypeId} {span : Span} : id < g.size →
    (insert id name kind type span g = .ok () g' ∨
      ∃ e, insert id name kind type span g = .error e g') → Edit g g'

def Builds : ScopeGraph G → ScopeGraph G → Prop := Relation.ReflTransGen Edit

/-! ## The tree of a graph -/

/-- The nodes and edges of the graph are the scopes of the tree and the ties between them. -/
structure Represents (g : ScopeGraph G) (t : ScopeTree) : Prop where
  nodes : nodes g.graph = t.scopes.map Scope.toSymbolTable
  incoming : ∀ id, neighbours g.graph .incoming id = (t.parent? id).toList
  outgoing : ∀ id, neighbours g.graph .outgoing id = (t.children id).reverse
  global : g.global = ScopeTree.global
  classScopes : g.classScopes = t.classScopes
  methodScopes : g.methodScopes = t.methodScopes
  blockScopes : g.blockScopes = t.blockScopes

/-- A declaration is refused, and nothing changes, or only the scope itself changes. -/
theorem insert_eq (g : ScopeGraph G) (id : ScopeId) (name : String) (kind : SymbolKind)
    (type : TypeId) (span : Span) :
    insert id name kind type span g =
      if ((g.scope id).get? name).isSome then .error (.duplicateSymbol name) g
      else .ok () { g with graph := DirectedGraph.modify g.graph id fun s =>
        { s with symbols := s.symbols.insert name ⟨name, kind, type, id, span⟩ } } := by
  change (if _ then _ else _ : EStateM _ _ _) g = _
  split <;> rfl

theorem eq_of_insert_eq_error {id : ScopeId} {name : String} {kind : SymbolKind} {type : TypeId}
    {span : Span} {e : DeclarationError} (h : insert id name kind type span g = .error e g') :
    g' = g ∧ ((g.scope id).get? name).isSome = true := by
  rw [insert_eq] at h
  split at h
  · next hsome => exact ⟨(EStateM.Result.error.inj h).2.symm, hsome⟩
  · cases h

namespace Represents

theorem size_eq (h : g.Represents t) : g.size = t.size := by
  rw [size, h.nodes, List.length_map, ScopeTree.size]

theorem scope_eq (h : g.Represents t) (id : ScopeId) : g.scope id = (t.scope id).toSymbolTable := by
  rw [scope, h.nodes, List.getElem?_map, ScopeTree.scope, ScopeTree.scope?]
  cases t.scopes[id]? <;> rfl

theorem parent?_eq (h : g.Represents t) (id : ScopeId) : g.parent? id = t.parent? id := by
  rw [parent?, h.incoming]
  cases t.parent? id <;> rfl

theorem children_eq (h : g.Represents t) (id : ScopeId) : g.children id = t.children id := by
  rw [children, h.outgoing, List.reverse_reverse]

variable [LawfulDirectedGraph G]

theorem initial : (ScopeGraph.initial : ScopeGraph G).Represents .initial where
  nodes := by
    change DirectedGraph.nodes (addNode _ _).2 = _
    rw [nodes_addNode, nodes_empty]
    rfl
  incoming id := by
    change neighbours (addNode _ _).2 _ _ = _
    rw [neighbours_addNode, neighbours_empty]
    cases id <;> rfl
  outgoing id := by
    change neighbours (addNode _ _).2 _ _ = _
    rw [neighbours_addNode, neighbours_empty]
    rfl
  global := by
    change (addNode _ _).1 = _
    rw [addNode_fst, nodes_empty]
    rfl
  classScopes := rfl
  methodScopes := rfl
  blockScopes := rfl

theorem addScope (h : g.Represents t) {parent : ScopeId} (hp : parent < t.size)
    (kind : ScopeKind) (name : String) :
    (g.addScope parent kind name).1 = t.size ∧
      (g.addScope parent kind name).2.Represents (t.addScope parent kind name).2 := by
  have hlength : (DirectedGraph.nodes g.graph).length = t.size := h.size_eq
  have hnodes := nodes_addNode g.graph ((g.scope parent).inside kind name)
  have hchild := (addNode_fst g.graph ((g.scope parent).inside kind name)).trans hlength
  have hparent : parent < (DirectedGraph.nodes
      (addNode g.graph ((g.scope parent).inside kind name)).2).length := by
    rw [hnodes, List.length_append, hlength]
    exact Nat.lt_succ_of_lt hp
  have hlast : t.size < (DirectedGraph.nodes
      (addNode g.graph ((g.scope parent).inside kind name)).2).length := by
    rw [hnodes, List.length_append, hlength]
    exact Nat.lt_succ_self _
  refine ⟨hchild, ?_⟩
  unfold ScopeGraph.addScope
  dsimp only
  rw [hchild]
  refine ⟨?_, fun id => ?_, fun id => ?_, h.global, h.classScopes, h.methodScopes, h.blockScopes⟩
  · rw [nodes_addEdge _ hparent hlast, hnodes, h.nodes, h.scope_eq]
    simp [ScopeTree.addScope]
  · rw [incoming_addEdge _ _ hparent hlast, neighbours_addNode, h.incoming]
    rw [ScopeTree.parent?_addScope]
    by_cases hid : id = t.size
    · rw [if_pos hid, if_pos hid, hid, ScopeTree.parent?,
        ScopeTree.scope_of_size_le _ (Nat.le_refl _)]
      rfl
    · rw [if_neg hid, if_neg hid]
  · rw [outgoing_addEdge _ _ hparent hlast, neighbours_addNode, h.outgoing,
      ScopeTree.children_addScope]
    by_cases hid : id = parent
    · simp [hid]
    · simp [hid, Ne.symm hid]

theorem insert (h : g.Represents t) {id : ScopeId} (hid : id < t.size) {name : String}
    {kind : SymbolKind} {type : TypeId} {span : Span}
    (hinsert : ScopeGraph.insert id name kind type span g = .ok () g') :
    ∃ t', t.insert id name kind type span = .ok t' ∧ g'.Represents t' := by
  rw [insert_eq, h.scope_eq] at hinsert
  have hlength : id < (DirectedGraph.nodes g.graph).length := Nat.lt_of_lt_of_eq hid h.size_eq.symm
  split at hinsert
  · cases hinsert
  · next hnew =>
    obtain ⟨_, rfl⟩ := EStateM.Result.ok.inj hinsert
    obtain ⟨t', htree⟩ : ∃ t', t.insert id name kind type span = .ok t' := ⟨_, if_neg hnew⟩
    have htables := ScopeTree.insert_eq htree
    refine ⟨t', htree, ?_, fun c => ?_, fun c => ?_, h.global, ?_, ?_, ?_⟩
    · rw [nodes_modify _ _ hlength, h.nodes, htables]
      refine List.ext_getElem? fun i => ?_
      simp only [List.getElem?_map, List.getElem?_modify]
      cases t.scopes[i]? with
      | none => rfl
      | some s => by_cases hi : id = i <;> simp [hi]
    · rw [neighbours_modify _ _ hlength, h.incoming, ScopeTree.parent?_insert htree]
    · rw [neighbours_modify _ _ hlength, h.outgoing, ScopeTree.children, ScopeTree.children,
        ScopeTree.size_insert htree, ScopeTree.parent?_insert htree]
    · exact h.classScopes.trans (ScopeTree.classScopes_insert htree).symm
    · exact h.methodScopes.trans (ScopeTree.methodScopes_insert htree).symm
    · exact h.blockScopes.trans (ScopeTree.blockScopes_insert htree).symm

/-- What is done to the graph is done to the tree, or is refused. -/
theorem edit (h : g.Represents t) (hn : t.Nested) (hedit : Edit g g') :
    ∃ t', (t' = t ∨ ScopeTree.Edit t t') ∧ g'.Represents t' := by
  cases hedit with
  | openClass type name superclass =>
    have hparent := (hn.superclassScope superclass).1
    refine ⟨_, .inr (.openClass type name superclass), ?_⟩
    unfold addClassScope
    rw [h.classScopes, h.global]
    obtain ⟨hid, hadd⟩ := h.addScope hparent (.classScope type) name
    exact ⟨hadd.nodes, hadd.incoming, hadd.outgoing, hadd.global,
      congrArg₂ (·.insert type ·) hadd.classScopes hid, hadd.methodScopes, hadd.blockScopes⟩
  | openMethod node name isStatic result hp =>
    rw [h.size_eq] at hp
    refine ⟨_, .inr (.openMethod node name isStatic result hp), ?_⟩
    obtain ⟨hid, hadd⟩ := h.addScope hp (.method isStatic result) name
    exact ⟨hadd.nodes, hadd.incoming, hadd.outgoing, hadd.global, hadd.classScopes,
      congrArg₂ (·.insert node ·) hadd.methodScopes hid, hadd.blockScopes⟩
  | @openBlock parent node hp =>
    rw [h.size_eq] at hp
    refine ⟨_, .inr (.openBlock node hp), ?_⟩
    unfold addBlockScope
    rw [h.scope_eq]
    obtain ⟨hid, hadd⟩ := h.addScope hp .block ("statement block in " ++ (t.scope parent).name)
    exact ⟨hadd.nodes, hadd.incoming, hadd.outgoing, hadd.global, hadd.classScopes,
      hadd.methodScopes, congrArg₂ (·.insert node ·) hadd.blockScopes hid⟩
  | declare hid hinsert =>
    rw [h.size_eq] at hid
    rcases hinsert with hok | ⟨e, herror⟩
    · obtain ⟨t', htree, hrep⟩ := h.insert hid hok
      exact ⟨t', .inr (.declare hid htree), hrep⟩
    · rw [(eq_of_insert_eq_error herror).1]
      exact ⟨t, .inl rfl, h⟩

end Represents

theorem Builds.exists_tree [LawfulDirectedGraph G] (h : Builds (initial : ScopeGraph G) g) :
    ∃ t, ScopeTree.Builds .initial t ∧ g.Represents t := by
  induction h with
  | refl => exact ⟨.initial, .refl, .initial⟩
  | tail _ hedit ih =>
    obtain ⟨t, hbuilds, hrep⟩ := ih
    obtain ⟨t', rfl | htree, hrep'⟩ := hrep.edit (ScopeTree.Nested.initial.builds hbuilds) hedit
    · exact ⟨t', hbuilds, hrep'⟩
    · exact ⟨t', hbuilds.tail htree, hrep'⟩

/-! ## Lookups -/

/-- If each step leads to an older scope, the loop ends, with what the list of the scopes that it
    can pass gives. -/
theorem walk_eq (g : ScopeGraph G) {α : Type} {next : ScopeId → Option ScopeId}
    {route : ScopeId → List ScopeId} (hroute : ∀ id, route id = id :: (next id).elim [] route)
    (hlt : ∀ id j, next id = some j → j < id) (answer : ScopeId → SymbolTable → Option (Option α))
    (id : ScopeId) :
    g.walk next answer (some id) =
      some ((route id).findSome? fun s => answer s (g.scope s)).join := by
  induction id using Nat.strongRecOn with
  | _ id ih =>
    rw [walk, hroute, List.findSome?_cons]
    cases answer id (g.scope id) with
    | some found => rfl
    | none =>
      cases hn : next id with
      | none => rw [walk]; rfl
      | some j => exact ih j (hlt id j hn)

theorem join_findSome? {α : Type} (f : ScopeId → Option α) (l : List ScopeId) :
    (l.findSome? fun s => (f s).map some).join = l.findSome? f := by
  induction l with
  | nil => rfl
  | cons s l ih =>
    rw [List.findSome?_cons, List.findSome?_cons]
    cases f s with
    | none => exact ih
    | some a => rfl

/-- A walk that stops where it leaves the classes looks at the classes before that. -/
theorem join_findSome?_takeWhile {α : Type} (p : ScopeId → Bool) (f : ScopeId → Option α)
    (l : List ScopeId) :
    (l.findSome? fun s => if p s then (f s).map some else some none).join =
      (l.takeWhile p).findSome? f := by
  induction l with
  | nil => rfl
  | cons s l ih =>
    rw [List.findSome?_cons, List.takeWhile_cons]
    by_cases hs : p s = true
    · rw [if_pos hs, if_pos hs, List.findSome?_cons]
      cases f s with
      | none => exact ih
      | some a => rfl
    · rw [if_neg hs, if_neg hs]
      rfl

namespace Represents

theorem nextOutward?_eq (h : g.Represents t) (hn : t.Nested) (hp : t.Parented) :
    g.nextOutward? = t.nextOutward? := by
  funext id
  have hroot : (t.scope id).kind = .global → t.parent? id = none := by
    intro hkind
    by_cases hid : id < t.size
    · by_cases hglobal : id = ScopeTree.global
      · rw [hglobal]
        exact hn.parent?_global
      · obtain ⟨_, _, _, _, hne⟩ := hp id hid hglobal
        exact absurd hkind hne
    · rw [ScopeTree.parent?, ScopeTree.scope_of_size_le _ (Nat.le_of_not_lt hid)]
      rfl
  rw [nextOutward?, ScopeTree.nextOutward?, h.scope_eq, h.parent?_eq, h.global]
  revert hroot
  cases (t.scope id).kind with
  | global => exact fun hroot => (hroot rfl).symm
  | method isStatic => cases isStatic <;> exact fun _ => rfl
  | classScope | block => exact fun _ => rfl

theorem lookupVisible_eq (h : g.Represents t) (hn : t.Nested) (hp : t.Parented) (id : ScopeId)
    (name : String) (visible : Nat) :
    g.lookupVisible id name visible = some (t.lookupVisible id name visible) := by
  rw [lookupVisible, h.nextOutward?_eq hn hp,
    g.walk_eq hn.outward_path_eq fun _ _ => hn.nextOutward?_lt, join_findSome?]
  simp only [h.scope_eq]
  rfl

theorem parent?_funext (h : g.Represents t) : g.parent? = t.parent? := funext h.parent?_eq

theorem lookupMember_eq (h : g.Represents t) (hn : t.Nested) (id : ScopeId) (name : String) :
    g.lookupMember id name = some (t.lookupMember id name) := by
  rw [lookupMember, h.parent?_funext, g.walk_eq hn.path_eq fun _ _ => hn.parent?_lt,
    join_findSome?_takeWhile]
  simp only [h.scope_eq]
  rfl

theorem enclosing?_eq (h : g.Represents t) (hn : t.Nested) (p : ScopeKind → Bool) (id : ScopeId) :
    g.enclosing? p id = some ((t.path id).find? fun s => p (t.scope s).kind) := by
  have hguard : ∀ s, (if p (t.scope s).kind then some (some s) else none) =
      (Option.guard (fun s => p (t.scope s).kind) s).map some := by
    intro s
    unfold Option.guard
    split <;> rfl
  rw [enclosing?, h.parent?_funext, g.walk_eq hn.path_eq fun _ _ => hn.parent?_lt]
  simp only [h.scope_eq, hguard]
  rw [join_findSome?, List.findSome?_guard]

end Represents

/-! ## The text -/

/-- Texts of subtrees are written one after the other, each after an empty line. -/
theorem foldlM_write {write : String → ScopeId → Option String} {text : ScopeId → String}
    (subs : List (ScopeId × List ScopeId)) (hne : ∀ sub ∈ subs, sub.2 ≠ [])
    (hwrite : ∀ sub ∈ subs, ∀ out,
      write out sub.1 = some (out ++ "\n".intercalate (sub.2.map text)))
    (out : String) (written : List ScopeId) (hwritten : written ≠ []) :
    subs.foldlM (fun out sub => write (out ++ "\n") sub.1)
        (out ++ "\n".intercalate (written.map text)) =
      some (out ++ "\n".intercalate ((written ++ subs.flatMap Prod.snd).map text)) := by
  induction subs generalizing written with
  | nil => simp
  | cons sub subs ih =>
    obtain ⟨hsub, hsubs⟩ := List.forall_mem_cons.mp hne
    obtain ⟨hhead, htail⟩ := List.forall_mem_cons.mp hwrite
    have hjoin := String.intercalate_append_of_ne_nil (s := "\n") (l := written.map text)
      (m := sub.2.map text) (by simpa using hwritten) (by simpa using hsub)
    rw [← List.map_append] at hjoin
    have hrest := ih hsubs htail (written ++ sub.2) (by simp [hwritten])
    rw [hjoin, List.append_assoc, ← List.flatMap_cons] at hrest
    rw [List.foldlM_cons, hhead]
    simpa only [String.append_assoc, Option.bind_eq_bind, Option.bind_some] using hrest

theorem Represents.paragraph_eq (h : g.Represents t) (types : TypeTable) (id : ScopeId) :
    (g.scope id).paragraph types ((g.children id).map fun child => (g.scope child).name) =
      t.paragraph types id := by
  simp only [h.children_eq, h.scope_eq]
  rfl

/-- The recursion over the children writes the subtree that it starts at. -/
theorem Represents.writeScope_eq (h : g.Represents t) (hn : t.Nested) (types : TypeTable)
    (n : Nat) :
    ∀ k, k + n = t.size → ∀ sub ∈ (List.range' k n).foldr t.addSubtree [], ∀ out,
      g.writeScope types out sub.1 =
        some (out ++ "\n".intercalate (sub.2.map (t.paragraph types))) := by
  induction n with
  | zero => simp
  | succ n ih =>
    intro k hsize sub hsub out
    have hyounger := ih (k + 1) (by omega)
    rw [List.range'_succ, List.foldr_cons] at hsub
    rcases List.mem_cons.mp hsub with rfl | hsub
    · rw [writeScope]
      dsimp only
      rw [h.paragraph_eq, h.children_eq, hn.children_eq (n := n) (by omega), List.foldlM_map]
      have hinside : ∀ sub ∈ ((List.range' (k + 1) n).foldr t.addSubtree []).filter
          (fun sub => t.parent? sub.1 = some k),
          sub ∈ (List.range' (k + 1) n).foldr t.addSubtree [] :=
        fun sub hsub => (List.mem_filter.mp hsub).1
      have hne : ∀ sub ∈ (List.range' (k + 1) n).foldr t.addSubtree [], sub.2 ≠ [] := by
        intro sub hsub
        obtain ⟨tail, htail, _⟩ := t.exists_tail_of_mem_subtrees _ sub hsub
        simp [htail]
      have hloop := foldlM_write _ (fun sub hsub => hne sub (hinside sub hsub))
        (fun sub hsub => hyounger sub (hinside sub hsub)) out [k] (by simp)
      rw [List.map_singleton, String.intercalate_singleton] at hloop
      exact hloop
    · exact hyounger sub hsub out

/-! ## All together -/

/-- The edges make a tree of the scopes. -/
structure IsTree (g : ScopeGraph G) : Prop where
  root : neighbours g.graph .incoming g.global = [] ∧ (g.scope g.global).depth = 0
  parent : ∀ id < g.size, id ≠ g.global → ∃ p < id, neighbours g.graph .incoming id = [p] ∧
    g.parent? id = some p ∧
    (g.scope id).depth = if (g.scope id).isClass then 1 else (g.scope p).depth + 1
  numbered : ∀ parent kind name, (g.addScope parent kind name).1 = g.size
  children : ∀ id c, c ∈ g.children id ↔ c < g.size ∧ g.parent? c = some id
  creationOrder : ∀ id, (g.children id).Pairwise (· < ·)
  symbols : ∀ id name s, (g.scope id).get? name = some s → s.scope = id

/-- The text has one paragraph for each scope, after the one of its parent. -/
def IsListed (g : ScopeGraph G) : Prop :=
  ∃ order : List ScopeId, order.Perm (List.range g.size) ∧
    (∀ id < g.size, id ≠ g.global → ∃ p, g.parent? id = some p ∧ [p, id].Sublist order) ∧
    ∀ types, g.render types = some ("\n".intercalate (order.map fun id =>
      (g.scope id).paragraph types ((g.children id).map fun child => (g.scope child).name)))

/-- All questions to the graph are answered, as they are by the tree. -/
structure AnswersAs (g : ScopeGraph G) (t : ScopeTree) : Prop where
  lookupVisible : ∀ id name visible,
    g.lookupVisible id name visible = some (t.lookupVisible id name visible)
  lookupMember : ∀ id name, g.lookupMember id name = some (t.lookupMember id name)
  enclosingClass : ∀ id, g.enclosing? ScopeKind.isClass id = some (t.enclosingClass? id)
  enclosingMethod : ∀ id, g.enclosing? ScopeKind.isMethod id = some (t.enclosingMethod? id)
  render : ∀ types, g.render types = some (t.render types)

namespace Represents

theorem isTree [LawfulDirectedGraph G] (h : g.Represents t)
    (hbuilds : ScopeTree.Builds .initial t) : g.IsTree where
  root := by
    rw [h.incoming, h.scope_eq, h.global, (ScopeTree.Nested.initial.builds hbuilds).parent?_global]
    exact ⟨rfl, hbuilds.extends.depth ScopeTree.global (by decide)⟩
  parent id hid hne := by
    rw [h.size_eq] at hid
    rw [h.global] at hne
    obtain ⟨p, hlies⟩ := ScopeTree.Parented.builds hbuilds id hid hne
    simp only [h.scope_eq, h.incoming, h.parent?_eq, hlies.parent?]
    exact ⟨p, hlies.1, rfl, rfl, hlies.2.2.1⟩
  numbered _ _ _ := addNode_fst _ _
  children id c := by
    simp [h.children_eq, h.size_eq, h.parent?_eq, ScopeTree.children]
  creationOrder id := by
    rw [h.children_eq]
    exact List.Pairwise.filter _ List.pairwise_lt_range
  symbols id name s hs := by
    rw [h.scope_eq] at hs
    exact (ScopeTree.Nested.initial.builds hbuilds).symbols id name s hs

theorem render_eq (h : g.Represents t) (hn : t.Nested) (hp : t.Parented) (types : TypeTable) :
    g.render types = some (t.render types) := by
  obtain ⟨sub, hsub, hroot, hpreorder, _⟩ := hp.preorder_eq hn.nonempty
  rw [ScopeTree.subtrees_eq, List.range_eq_range'] at hsub
  have hwrite := h.writeScope_eq hn types t.size 0 (Nat.zero_add _) sub hsub ""
  rw [hroot, hpreorder, String.empty_append] at hwrite
  rw [render, h.global, hwrite]
  rfl

theorem isListed (h : g.Represents t) (hn : t.Nested) (hp : t.Parented) : g.IsListed := by
  obtain ⟨sub, hsub, hroot, hpreorder, hperm⟩ := hp.preorder_eq hn.nonempty
  refine ⟨t.preorder, h.size_eq ▸ hperm, fun id hid hne => ?_, fun types => ?_⟩
  · rw [h.size_eq] at hid
    rw [h.global] at hne
    obtain ⟨tail, htail, hbefore⟩ := t.exists_tail_of_mem_subtrees _ sub hsub
    have hmem : id ∈ sub.2 := hpreorder ▸ hperm.mem_iff.mpr (List.mem_range.mpr hid)
    rw [htail, hroot] at hmem
    rw [h.parent?_eq, ← hpreorder]
    exact hbefore id ((List.mem_cons.mp hmem).resolve_left hne)
  · simp only [h.paragraph_eq]
    exact h.render_eq hn hp types

end Represents

/-- However scopes are opened and names declared, in whatever library of graphs, they form a
    tree, which the lookups and the text follow to an end. A declaration that is refused leaves
    everything as it was. -/
theorem scopes_stay_a_tree [LawfulDirectedGraph G] (h : Builds (initial : ScopeGraph G) g) :
    g.IsTree ∧ g.IsListed ∧
    (∃ t, ScopeTree.Builds .initial t ∧ g.Represents t ∧ g.AnswersAs t) ∧
    ∀ id name kind type span e g', insert id name kind type span g = .error e g' →
      g' = g ∧ ((g.scope id).get? name).isSome = true := by
  obtain ⟨t, hbuilds, hrep⟩ := h.exists_tree
  have hn := ScopeTree.Nested.initial.builds hbuilds
  have hp := ScopeTree.Parented.builds hbuilds
  have hanswers : g.AnswersAs t := ⟨hrep.lookupVisible_eq hn hp, hrep.lookupMember_eq hn,
    hrep.enclosing?_eq hn _, hrep.enclosing?_eq hn _, hrep.render_eq hn hp⟩
  exact ⟨hrep.isTree hbuilds, hrep.isListed hn hp, ⟨t, hbuilds, hrep, hanswers⟩,
    fun _ _ _ _ _ _ _ => eq_of_insert_eq_error⟩

namespace Rebound

/-- Two classes named alike, a subclass of the first, a block in a method, a method in a block. -/
def graph : ScopeGraph EdgeList :=
  let g : ScopeGraph EdgeList := (initial.addClassScope 5 "A" none).2
  let g := (g.addMethodScope 1 0 "f" true 0).2
  let g := (g.addClassScope 6 "B" (some 5)).2
  let g := (g.addClassScope 5 "A" none).2
  let g := (g.addBlockScope 2 0).2
  (g.addMethodScope 5 0 "g" false 0).2

theorem builds_graph : Builds initial graph := by
  have hclass : Builds (initial : ScopeGraph EdgeList) _ := .tail .refl (.openClass 5 "A" none)
  have hmethod : Builds initial _ := hclass.tail (.openMethod 0 "f" true 0 (show 1 < _ by decide))
  have hsubclass : Builds initial _ := hmethod.tail (.openClass 6 "B" (some 5))
  have hagain : Builds initial _ := hsubclass.tail (.openClass 5 "A" none)
  have hblock : Builds initial _ := hagain.tail (.openBlock 0 (show 2 < _ by decide))
  exact hblock.tail (.openMethod 0 "g" false 0 (show 5 < _ by decide))

end Rebound

theorem scopes_stay_a_tree_rebound :
    Builds initial Rebound.graph ∧ Rebound.graph.IsTree ∧ Rebound.graph.IsListed ∧
      Rebound.graph.children 0 = [1, 4] ∧ Rebound.graph.children 1 = [2, 3] :=
  have h := scopes_stay_a_tree Rebound.builds_graph
  ⟨Rebound.builds_graph, h.1, h.2.1, by decide, by decide⟩

end ScopeGraph

end IcLir
