import IcLir.Proofs.HasType
import IcLir.Proofs.LexicalFrames
import IcLir.Proofs.ValueTypes
import Mathlib.Data.List.Nodup

/-
  Checking an expression. What a body sees in the tables is what the text around it says (`Sees`):
  names are bound by the frames (`Stack.name_cases`), and members are those of the superclasses
  (`Above.field_cases`, `Above.method_cases`). So the check of an expression finds the number of
  the type that the rules give it, and leaves tables in which the expression has this type; if
  they give it none, the check rejects it (`computes_checkExpr`).
-/

namespace IcLir

namespace Definition

open Lexical TypeTable

variable {d : Definition} {classes : List ClassDecl} {scope : ScopeId}

theorem field?_eq_none {c : ClassDecl} {name : String} (h : name ∉ c.fieldNames) :
    Lexical.field? name c = none := by
  have hfind : c.fields.find? (·.name.name = name) = none := by
    rw [List.find?_eq_none]
    intro f hf hname
    exact h (List.mem_map.mpr ⟨f, hf, by simpa using hname⟩)
  rw [Lexical.field?, hfind]
  rfl

/-- Either the classes have a field `name`, which is also the one found through the scopes, or
    there is none. -/
theorem Above.field_cases (hsound : Sound d) (h : Above d classes scope) (name : String) :
    (∃ s b, (d.scopes.lookupMember scope name).filter (·.kind = .field) = some s ∧
        classes.findSome? (Lexical.field? name) = some b ∧
        b.meaning? d.types d.scopes = some (.field s.scope, s.type)) ∨
      (d.scopes.lookupMember scope name).filter (·.kind = .field) = none ∧
        classes.findSome? (Lexical.field? name) = none := by
  cases hfilter : (d.scopes.lookupMember scope name).filter (·.kind = .field) with
  | some s =>
    obtain ⟨hs, hk⟩ := Option.filter_eq_some_iff.mp hfilter
    obtain ⟨b, hb, hmeaning⟩ := exists_field_of_lookupMember hsound h hs (by simpa using hk)
    exact .inl ⟨s, b, rfl, hb, hmeaning⟩
  | none =>
    refine .inr ⟨rfl, ?_⟩
    rw [List.findSome?_eq_none_iff]
    intro c hc
    refine field?_eq_none ?_
    rcases h.lookupMember_cases hsound name with
      ⟨_, hno⟩ | ⟨before, b, after, type, scope', parent, s, heq, hno, hfit, hb, hget, hlook⟩
    · exact (hno c hc).1
    rcases hb.holds.cases hget with ⟨f, _, _, hfield⟩ | ⟨m, hm, rfl, _⟩
    · rw [hlook, Option.filter_some_pos (by simpa using hfield.kind)] at hfilter
      simp at hfilter
    -- a method is in the way, and no class has a field of the name of a method
    · rw [heq] at hc
      rcases List.mem_append.mp hc with hc | hc
      · exact (hno c hc).1
      rcases List.mem_cons.mp hc with rfl | hc
      · exact hfit.method_new m hm
      · exact hfit.method_above m hm c hc

/-- Either the classes have a method `name`, which is also the one found through the scopes, or
    there is none. -/
theorem Above.method_cases (hsound : Sound d) (h : Above d classes scope) (name : String) :
    (∃ s m, d.scopes.lookupMember scope name = some s ∧ s.kind = .method m.kind ∧
        classes.findSome? (·.method? name) = some m ∧ d.types.SignatureOf m s.type) ∨
      (∀ s, d.scopes.lookupMember scope name = some s → s.kind.methodKind? = none) ∧
        classes.findSome? (·.method? name) = none := by
  rcases h.lookupMember_cases hsound name with
    ⟨hnone, hno⟩ | ⟨before, b, after, type, scope', parent, s, heq, hno, hfit, hb, hget, hlook⟩
  · refine .inr ⟨fun s hs => ?_, findSome?_method?_eq_none hno⟩
    rw [hnone] at hs
    simp at hs
  rcases hb.holds.cases hget with ⟨f, hf, rfl, hfield⟩ | ⟨m, hm, rfl, hmethod⟩
  · refine .inr ⟨fun s' hs' => ?_, ?_⟩
    · obtain rfl : s = s' := Option.some.inj (hlook.symm.trans hs')
      rw [hfield.kind]
      rfl
    -- a field is in the way, and no class has a method of the name of a field
    · rw [List.findSome?_eq_none_iff, heq]
      intro c hc
      refine ClassDecl.method?_eq_none fun hmem => ?_
      rcases List.mem_append.mp hc with hc | hc
      · exact (hno c hc).2 hmem
      rcases List.mem_cons.mp hc with rfl | hc
      · obtain ⟨m, hm, hname⟩ := List.mem_map.mp hmem
        exact hfit.method_new m hm (hname ▸ List.mem_map_of_mem hf)
      · exact (hfit.field_new f hf c hc).2 hmem
  · refine .inl ⟨s, m, hlook, hmethod.kind, ?_, hmethod.type⟩
    rw [heq, List.findSome?_append, findSome?_method?_eq_none hno, List.findSome?_cons,
      ClassDecl.method?_of_mem hfit.methods_nodup hm]
    rfl

end Definition

namespace Lexical

open Definition

theorem Binding.denoted?_of_meaning? {types : TypeTable} {t : ScopeTree} {b : Binding}
    {x : Resolution × TypeId} (h : b.meaning? types t = some x) :
    types.denoted? b.type = some x.2 := by
  cases b with
  | var origin type | field owner type =>
    obtain ⟨_, _, h⟩ := Option.bind_eq_some_iff.mp h
    obtain ⟨id, hid, rfl⟩ := Option.map_eq_some_iff.mp h
    exact hid

/-- Either a name resolves, to what the frames bind it to, or it is not bound. -/
theorem Stack.name_cases {d : Definition} {env : MethodEnv} {classes : List ClassDecl}
    {lo n : Nat} {scope : ScopeId} {outer : List ScopeId} {frames : List Frame}
    (h : Stack d env lo n scope outer frames) (hs : Surrounds d env classes) (name : String) :
    (∃ r id b, Typing.resolveName? env scope name n = some (r, id) ∧
        lookup (inView env classes) frames name = some b ∧ d.types.denoted? b.type = some id) ∨
      Typing.resolveName? env scope name n = none ∧
        lookup (inView env classes) frames name = none := by
  cases hx : Typing.resolveName? env scope name n with
  | some x =>
    obtain ⟨b, hb, hmeaning⟩ := h.exists_lookup hs hx
    exact .inl ⟨x.1, x.2, b, rfl, hb, Binding.denoted?_of_meaning? hmeaning⟩
  | none =>
    refine .inr ⟨rfl, ?_⟩
    have hfit := hs.sound.symbols
    unfold Typing.resolveName? at hx
    rw [hs.scopes, ScopeTree.lookupVisible, h.inside.outward_eq, List.findSome?_append] at hx
    rcases h.pictures.findSome? hfit h.inside.isVariable name with
      ⟨s, _, hfound, hvar, _, _⟩ | ⟨hnone, hnone'⟩
    · rw [hfound, Option.some_or] at hx
      dsimp only at hx
      rw [if_pos hvar] at hx
      simp at hx
    rw [lookup, hnone', Option.none_or, inView]
    cases hstatic : env.isStatic with
    | true => rfl
    | false =>
      rcases hs.above.field_cases hs.sound name with ⟨s, _, hfilter, _⟩ | ⟨_, hfields⟩
      -- a field in view would have been found
      · obtain ⟨hmember, hk⟩ := Option.filter_eq_some_iff.mp hfilter
        have hk : s.kind = .field := by simpa using hk
        rw [hnone, Option.none_or, hstatic, if_neg (by decide),
          hs.upToGlobal.outward_path hs.isGlobal, hs.upToGlobal.findSome?_path hfit hs.isGlobal,
          hmember, Option.some_or] at hx
        dsimp only at hx
        rw [hk] at hx
        simp [SymbolKind.isVariable] at hx
      · exact hfields

end Lexical

namespace Typing

open Pass Definition Lexical TypeTable

/-- The environment is that of a class of the program, whose definition is `d`. -/
structure ChecksIn (env : MethodEnv) (p : Program) (d : Definition) : Prop where
  defined : Defined p d
  scopes : env.scopes = d.scopes
  classOf : ∃ i c parent, p.classes[i]? = some c ∧ env.type = classId i ∧
    ClassOf d c (classId i) env.classScope parent

/-- What the text says of the surroundings of a method body is what the tables say. -/
structure Sees (p : Program) (d : Definition) (env : MethodEnv) (o : Outlook) : Prop where
  table : ClassTable p.classes d.types
  lineage : o.lineage = p.lineage
  isStatic : o.isStatic = env.isStatic
  type : d.types.class? o.owner = some env.type
  surrounds : Surrounds d env (p.lineage o.owner)
  above : ∀ name id, d.types.class? name = some id →
    ∃ scope, d.scopes.classScopes.get? id = some scope ∧ Above d (p.lineage name) scope

/-- Only the nodes `ids` were worked on, and the same locals are in view. -/
structure Keeps (ids : List NodeId) (t t' : Typing) : Prop extends Step ids t t' where
  visible : t'.visible = t.visible

section

variable {p : Program} {d : Definition} {env : MethodEnv} {o : Outlook}

variable {t t' t'' : Typing} {ids ids' : List NodeId} {e : Expr} {scope : ScopeId}

variable {a b : ValueType} {id : TypeId}

theorem Keeps.refl (ids : List NodeId) (t : Typing) : Keeps ids t t := ⟨.refl ids t, rfl⟩

theorem Keeps.trans (h : Keeps ids t t') (h' : Keeps ids' t' t'') : Keeps (ids ++ ids') t t'' :=
  ⟨h.toStep.trans h'.toStep, h'.visible.trans h.visible⟩

theorem Keeps.mono (h : Keeps ids t t') (hsub : ids ⊆ ids') : Keeps ids' t t' :=
  ⟨h.toStep.mono hsub, h.visible⟩

/-- The check of `e` that started in `t` found the number of its type. -/
structure Checked (env : MethodEnv) (e : Expr) (t : Typing) (type : ValueType) (id : TypeId)
    (t' : Typing) : Prop extends Keeps e.ids t t' where
  means : t'.types.Means id type
  hasType : HasType t' env e id

/-! ## Recording a type -/

def record (t : Typing) (node : Node) (type : TypeId) : Typing :=
  { t with exprTypes := t.exprTypes.insert node.id type }

theorem step_record (t : Typing) (node : Node) (type : TypeId) :
    Step [node.id] t (t.record node type) := by
  refine ⟨.refl _, fun n hn => ?_, fun _ _ => rfl⟩
  exact OrderedMap.get?_insert_of_ne _ _ fun h => hn (by simp [h])

theorem records_record (t : Typing) (node : Node) (type : TypeId) :
    (t.record node type).Records node type := OrderedMap.get?_insert_self ..

theorem HasType.record {type : TypeId} (h : HasType t env e type) (node : Node) (result : TypeId)
    (hnode : node.id ∉ e.ids) : HasType (t.record node result) env e type := by
  refine h.step (step_record t node result) fun n hn hn' => hnode ?_
  rw [← List.mem_singleton.mp hn']
  exact hn

theorem HasTypes.record {es : List Expr} {types : List TypeId} (h : HasTypes t env es types)
    (node : Node) (result : TypeId) (hnode : node.id ∉ Expr.idsOfList es) :
    HasTypes (t.record node result) env es types := by
  refine h.step (step_record t node result) fun n hn hn' => hnode ?_
  rw [← List.mem_singleton.mp hn']
  exact hn

/-- A node is typed once its parts are, and its type is recorded. -/
theorem computes_recorded {spec : Option ValueType} {node : Node} {check : Check TypeId}
    (hnode : e.node = node)
    (h : Computes spec check t fun type id t' =>
      Keeps e.ids t t' ∧ t'.types.Means id type ∧ HasType (t'.record node id) env e id) :
    Computes spec (recorded node.id check) t (Checked env e t) := by
  subst hnode
  rw [← Option.bind_fun_some spec]
  refine h.bind fun type id t' _ hfound => computes_modify.mpr (computes_pure ?_)
  obtain ⟨hkeeps, hmeans, htype⟩ := hfound
  refine ⟨⟨(hkeeps.toStep.trans (step_record t' e.node id)).mono ?_, hkeeps.visible⟩, hmeans, htype⟩
  intro n hn
  rcases List.mem_append.mp hn with hn | hn
  · exact hn
  · rw [List.mem_singleton.mp hn]
    exact e.id_mem_ids

/-! ## Names, members and types -/

theorem Sees.fieldsInView_eq (hs : Sees p d env o) :
    o.fieldsInView = inView env (p.lineage o.owner) := by
  rw [Outlook.fieldsInView, inView, hs.isStatic, hs.lineage]

/-- The scope of a class is that of its lineage. -/
theorem Sees.classScope_eq (hs : Sees p d env o) (he : d.types.Extends t.types) {name : String}
    (hclass : t.types.class? name = some id) :
    ∃ scope, env.scopes.classScopes.get? id = some scope ∧
      classScope env.scopes id = pure scope ∧ Above d (o.lineage name) scope := by
  rw [he.class?_eq] at hclass
  obtain ⟨scope, hscope, habove⟩ := hs.above name id hclass
  rw [← hs.surrounds.scopes] at hscope
  refine ⟨scope, hscope, ?_, hs.lineage ▸ habove⟩
  unfold classScope
  rw [hscope]

/-- What a name that resolves stands for. -/
theorem resolveName?_cases {classes : List ClassDecl} {lo n : Nat} {outer : List ScopeId}
    {frames : List Frame} (h : Stack d env lo n scope outer frames) (hs : Surrounds d env classes)
    {name : String} {r : Resolution} (hr : resolveName? env scope name n = some (r, id)) :
    ∃ s, s.type = id ∧ (d.scopes.scope s.scope).get? name = some s ∧
      (s.kind.isVariable = true ∧ r = .variable s.scope ∨
        env.isStatic = false ∧ d.scopes.lookupMember env.classScope name = some s ∧
          s.kind = .field ∧ r = .field s.scope) := by
  have hfit := hs.sound.symbols
  unfold resolveName? at hr
  rw [hs.scopes] at hr
  cases hlookup : d.scopes.lookupVisible scope name n with
  | none =>
    rw [hlookup] at hr
    simp at hr
  | some s =>
    have hget := ScopeTree.get?_of_lookupVisible hfit hlookup
    rw [hlookup] at hr
    dsimp only at hr
    split at hr
    · next hvar =>
      obtain ⟨rfl, rfl⟩ := Prod.mk.inj (Option.some.inj hr)
      exact ⟨s, rfl, hget, .inl ⟨hvar, rfl⟩⟩
    · split at hr
      · next hfield =>
        obtain ⟨rfl, rfl⟩ := Prod.mk.inj (Option.some.inj hr)
        obtain ⟨hstatic, hmember⟩ := h.inside.lookupMember_of_lookupVisible hfit hs.upToGlobal
          hs.isGlobal hlookup hfield
        exact ⟨s, rfl, hget, .inr ⟨hstatic, hmember, hfield, rfl⟩⟩
      · simp at hr

theorem computes_checkName (hs : Sees p d env o) (he : d.types.Extends t.types) {lo : Nat}
    {outer : List ScopeId} {frames : List Frame} (h : Stack d env lo t.visible scope outer frames)
    (node : Node) (name : Ident) :
    Computes ((lookup o.fieldsInView frames name.name).map (·.type.valueType))
      (checkName env scope node name.name) t fun type id t' => Keeps [node.id] t t' ∧
        t'.types.Means id type ∧ HasType (t'.record node id) env (.var node name) id := by
  unfold checkName
  rw [computes_get, hs.fieldsInView_eq]
  rcases h.name_cases hs.surrounds name.name with ⟨r, id, b, hr, hb, hid⟩ | ⟨hr, hb⟩
  · rw [hr, hb]
    refine computes_modify.mpr (computes_pure ⟨⟨⟨.refl _, fun _ _ => rfl, fun n hn => ?_⟩, rfl⟩,
      he.denoted?_of_some hid, ?_⟩)
    · exact OrderedMap.get?_insert_of_ne _ _ fun h => hn (by simp [h])
    obtain ⟨s, rfl, hget, ⟨hvar, rfl⟩ | ⟨hstatic, hmember, hfield, rfl⟩⟩ :=
      resolveName?_cases h hs.surrounds hr
    · rw [← hs.surrounds.scopes] at hget
      exact .var hget hvar (OrderedMap.get?_insert_self ..) (records_record ..)
    · rw [← hs.surrounds.scopes] at hmember
      exact .ownField hstatic hmember hfield (OrderedMap.get?_insert_self ..) (records_record ..)
  · rw [hr, hb]
    dsimp only
    split
    · exact computes_reject
    · exact computes_reject

theorem computes_checkField (hs : Sees p d env o) (he : d.types.Extends t.types) {owner : TypeId}
    {type : ValueType} (hm : t.types.Means owner type) (name : String) (span : Span) :
    Computes (o.fieldOf? type name) (checkField env owner name span) t fun type id t' =>
      t' = t ∧ t.types.Means id type ∧ ∃ scope s, t.types.isClass owner = true ∧
        env.scopes.classScopes.get? owner = some scope ∧
        env.scopes.lookupMember scope name = some s ∧ s.kind = .field ∧ s.type = id := by
  unfold checkField Outlook.fieldOf?
  rw [computes_get]
  rcases hm.class_cases (hs.table.extend he) with ⟨c, hc, _, hclass, his⟩ | ⟨hc, hnot⟩
  · obtain ⟨scope, hget, hscope, habove⟩ := hs.classScope_eq he hclass
    rw [hc, if_pos his, hscope, hs.surrounds.scopes, pure_bind, Option.bind_some]
    rcases habove.field_cases hs.surrounds.sound name with
      ⟨s, b, hfilter, hb, hmeaning⟩ | ⟨hfilter, hb⟩
    · obtain ⟨hmember, hk⟩ := Option.filter_eq_some_iff.mp hfilter
      rw [hfilter, hb]
      exact computes_pure ⟨rfl, he.denoted?_of_some (Binding.denoted?_of_meaning? hmeaning), scope,
        s, his, hs.surrounds.scopes ▸ hget, hmember, by simpa using hk, rfl⟩
    · rw [hfilter, hb]
      exact computes_reject
  · rw [hc, if_neg (by simp [hnot])]
    exact computes_reject

theorem decides_resolveType (ht : ClassTable p.classes t.types) (ho : o.lineage = p.lineage)
    (e : TypeExpr) :
    Decides (o.knows e.base = true) (Typing.resolveType e) t fun id t' =>
      Keeps [] t t' ∧ t'.types.denoted? e = some id := by
  rw [ht.knows_eq ho]
  unfold Typing.resolveType
  rw [decides_get]
  cases hb : t.types.base? e.base with
  | none =>
    have hr : t.types.resolve e = .error (.undefinedType e.text) := by rw [resolve, hb]
    rw [hr]
    exact ⟨Bool.false_ne_true, _, rfl⟩
  | some base =>
    have hr : t.types.resolve e = .ok (t.types.nest base e.dims) := by rw [resolve, hb]
    rw [hr]
    exact ⟨rfl, ⟨⟨extends_resolve hr, fun _ _ => rfl, fun _ _ => rfl⟩, rfl⟩,
      denoted?_of_resolve hr⟩

/-! ## Calls -/

/-- The class scope has or inherits a method of the name and of an allowed kind. -/
def HasCallee (env : MethodEnv) (scope : ScopeId) (name : String) (allowed : MethodKind → Bool)
    (id : TypeId) : Prop :=
  ∃ s kind, env.scopes.lookupMember scope name = some s ∧ s.kind = .method kind ∧
    allowed kind = true ∧ s.type = id

/-- A callee is a method of the right kind. -/
theorem computes_callee (hs : Sees p d env o) (he : d.types.Extends t.types)
    {classes : List ClassDecl} (h : Above d classes scope) (name : Ident)
    (allowed : MethodKind → Bool) (cause : Cause) (span : Span) :
    Computes ((classes.findSome? (·.method? name.name)).filter fun m => allowed m.kind)
      (do
        let (kind, signature) ← findMethod env scope name
        require (allowed kind) cause name.name span
        return signature) t
      fun m id t' => t' = t ∧ t.types.SignatureOf m id ∧
        HasCallee env scope name.name allowed id := by
  have hfind : Computes (classes.findSome? (·.method? name.name)) (findMethod env scope name) t
      fun m r t' => r.1 = m.kind ∧ t' = t ∧ t.types.SignatureOf m r.2 ∧
        ∃ s, env.scopes.lookupMember scope name.name = some s ∧ s.kind = .method r.1 ∧
          s.type = r.2 := by
    unfold findMethod
    rw [hs.surrounds.scopes]
    rcases h.method_cases hs.surrounds.sound name.name with ⟨s, m, hs', hk, hm, hsig⟩ | ⟨hnot, hm⟩
    · rw [hs', hm]
      dsimp only
      rw [hk]
      exact computes_pure ⟨rfl, rfl, hsig.extend he, s, rfl, hk, rfl⟩
    · rw [hm]
      cases hs' : d.scopes.lookupMember scope name.name with
      | none => exact computes_reject
      | some s =>
        dsimp only
        rw [hnot s hs']
        exact computes_reject
  rw [← Option.bind_guard]
  refine hfind.bind fun m r t' _ hm => ?_
  obtain ⟨kind, signature⟩ := r
  obtain ⟨rfl, rfl, hsig, s, hs', hk, htype⟩ := hm
  unfold Option.guard
  refine (decides_require ..).bind_computes fun _ t'' hallowed ht => ?_
  subst ht
  exact computes_pure ⟨rfl, hsig, s, m.kind, hs', hk, hallowed, htype⟩

theorem computes_staticCallee (hs : Sees p d env o) (he : d.types.Extends t.types)
    (className method : Ident) (span : Span) :
    Computes ((o.method? className.name method.name).filter (·.isStatic))
      (staticCallee env className method span) t
      fun m id t' => t' = t ∧ t.types.SignatureOf m id ∧
        ∃ type scope, t.types.class? className.name = some type ∧
          env.scopes.classScopes.get? type = some scope ∧
          HasCallee env scope method.name MethodKind.isStatic id := by
  unfold staticCallee Outlook.method?
  rw [computes_get]
  cases hc : t.types.class? className.name with
  | none =>
    rw [hs.lineage, (hs.table.extend he).class?_eq_none_iff.mp hc]
    exact computes_reject
  | some type =>
    obtain ⟨scope, hget, hscope, habove⟩ := hs.classScope_eq he hc
    dsimp only
    rw [hscope, pure_bind]
    refine (computes_callee hs he habove method MethodKind.isStatic .notStatic span).mono
      fun m id t' h => ?_
    exact ⟨h.1, h.2.1, type, scope, rfl, hget, h.2.2⟩

theorem computes_ownCallee (hs : Sees p d env o) (he : d.types.Extends t.types) (method : Ident)
    (span : Span) :
    Computes ((o.method? o.owner method.name).filter fun m => !o.isStatic || m.isStatic)
      (ownCallee env method span) t fun m id t' => t' = t ∧ t.types.SignatureOf m id ∧
        HasCallee env env.classScope method.name (fun kind => !env.isStatic || kind.isStatic)
          id := by
  unfold ownCallee Outlook.method?
  rw [hs.lineage, hs.isStatic]
  exact computes_callee hs he hs.surrounds.above method (fun kind => !env.isStatic || kind.isStatic)
    .virtualInStatic span

theorem computes_methodCallee (hs : Sees p d env o) (he : d.types.Extends t.types)
    {type : ValueType} (hm : t.types.Means id type) (receiver : Expr) (method : Ident)
    (span : Span) :
    Computes ((o.methodOf? type method.name).filter (!·.isStatic))
      (methodCallee env receiver id method span) t
      fun m signature t' => t' = t ∧ t.types.SignatureOf m signature ∧
        ∃ scope, t.types.isClass id = true ∧ env.scopes.classScopes.get? id = some scope ∧
          HasCallee env scope method.name (!·.isStatic) signature := by
  unfold methodCallee Outlook.methodOf?
  rw [computes_get]
  rcases hm.class_cases (hs.table.extend he) with ⟨c, hc, _, hclass, his⟩ | ⟨hc, hnot⟩
  · obtain ⟨scope, hget, hscope, habove⟩ := hs.classScope_eq he hclass
    rw [hc, his, hscope, pure_bind, Option.bind_some]
    refine (computes_callee hs he habove method (!·.isStatic) .staticThroughObject span).mono
      fun m signature t' h => ?_
    exact ⟨h.1, h.2.1, scope, rfl, hget, h.2.2⟩
  · rw [hc, hnot]
    exact computes_reject

/-- The arguments and the result of a call, for the signature of the callee. -/
theorem computes_call {frames : List Frame} {args : List Expr} {m : MethodDecl}
    (hsig : t.types.SignatureOf m id) (method : Ident) (span : Span)
    (hargs : ∀ params, m.params.map (fun q => t.types.denoted? q.type) = params.map some →
      args.length = m.params.length →
      Decides (o.argsFit frames args m.paramTypes = true) (checkArgs env scope args params) t
        fun _ t' => Keeps (Expr.idsOfList args) t t' ∧ HasTypes t' env args params) :
    Computes
      (if o.argsFit frames args m.paramTypes then some m.returnType.valueType else none)
      (do
        let signature ← callSignature method id args.length span
        checkArgs env scope args signature.params
        return signature.result) t
      fun type result t' => Keeps (Expr.idsOfList args) t t' ∧ t'.types.Means result type ∧
        ∃ signature, t'.types.signature? id = some signature ∧
          HasTypes t' env args signature.params ∧ signature.result = result := by
  obtain ⟨sig, hget, hresult, hparams⟩ := hsig
  have hlength : m.params.length = sig.params.length := by
    simpa using congrArg List.length hparams
  have hcall : Decides (args.length = m.params.length)
      (callSignature method id args.length span) t fun s t' => s = sig ∧ t' = t := by
    unfold callSignature
    rw [decides_get]
    refine decides_promised_bind hget ?_
    exact decides_require_pure (by simp [hlength]) fun _ => ⟨rfl, rfl⟩
  -- arguments that fit are as many as the parameters
  have hsplit : (if o.argsFit frames args m.paramTypes then some m.returnType.valueType else none) =
      if args.length = m.params.length then
        if o.argsFit frames args m.paramTypes then some m.returnType.valueType else none
      else none := by
    split
    · next hfits =>
      have hcount := o.length_of_argsFit frames hfits
      rw [MethodDecl.paramTypes, List.length_map] at hcount
      rw [if_pos hcount]
    · simp
  rw [hsplit]
  refine hcall.bind_computes fun s t' hcount hsame => ?_
  obtain ⟨rfl, rfl⟩ := hsame
  refine (hargs s.params hparams hcount).bind_computes fun _ t' _ h => ?_
  exact computes_pure ⟨h.1, h.1.types.denoted?_of_some hresult, s,
    h.1.types.signature?_of_some hget, h.2, rfl⟩

/-! ## Operators -/

theorem computes_checkBinary (hs : Sees p d env o) (he : d.types.Extends t.types)
    {left right : TypeId} (hl : t.types.Means left a) (hr : t.types.Means right b) (op : BinaryOp)
    (span : Span) :
    Computes (o.binaryType op a b) (checkBinary op left right span) t fun type id t' =>
      t' = t ∧ t.types.Means id type ∧ BinaryRule t.types op left right id := by
  have ht := hs.table.extend he
  have hsame := hl.eq_iff ht hr
  have hint := hl.eq_iff ht t.types.means_int
  unfold checkBinary Outlook.binaryType
  cases op with
  | arith op =>
    refine Decides.computes (decides_require_iff (by simp [hsame]) fun heq => ?_)
    have hstring := hl.eq_iff ht t.types.means_string
    by_cases hadd : op = .add
    · simp only [if_pos hadd]
      refine decides_require_pure (by simp [hadd, hint, hstring]) fun htype => ⟨rfl, hl, ?_⟩
      rw [← hint, ← hstring] at htype
      exact ⟨hsame.mpr heq, rfl, htype⟩
    · simp only [if_neg hadd]
      refine decides_require_pure (by simp [hadd, hint]) fun ha => ?_
      have ha : left = TypeId.int := hint.mpr (by simpa [hadd] using ha)
      exact ⟨rfl, ha ▸ hl, hsame.mpr heq, ha.symm, .inl ha⟩
  | logic op =>
    have hleft := hl.eq_iff ht t.types.means_boolean
    have hright := hr.eq_iff ht t.types.means_boolean
    refine Decides.computes (decides_require_pure (by simp [hleft, hright]) fun h => ?_)
    exact ⟨rfl, t.types.means_boolean, hleft.mpr h.1, hright.mpr h.2, rfl⟩
  | compare op =>
    by_cases heq : op.isEquality = true
    · have hleft := hl.eq_iff ht t.types.means_void
      have hright := hr.eq_iff ht t.types.means_void
      simp only [if_pos heq]
      refine Decides.computes (decides_require_iff (by simp [hleft, hright]) fun hvoid => ?_)
      rw [decides_get, ← hl.isSubtype_eq ht hs.lineage hr, ← hr.isSubtype_eq ht hs.lineage hl]
      refine decides_require_pure (by rw [Bool.or_eq_true]) fun hsub => ?_
      refine ⟨rfl, t.types.means_boolean, rfl, ?_⟩
      rw [if_pos heq]
      exact ⟨mt hleft.mp hvoid.1, mt hright.mp hvoid.2, hsub⟩
    · have hright := hr.eq_iff ht t.types.means_int
      simp only [if_neg heq]
      refine Decides.computes (decides_require_pure (by simp [hint, hright]) fun h => ?_)
      refine ⟨rfl, t.types.means_boolean, rfl, ?_⟩
      rw [if_neg heq]
      exact ⟨hint.mpr h.1, hright.mpr h.2⟩

theorem computes_checkUnary (hs : Sees p d env o) (he : d.types.Extends t.types) {operand : TypeId}
    (hm : t.types.Means operand a) (op : UnaryOp) (span : Span) :
    Computes (if a = .ofUnary op then some a else none) (checkUnary op operand span) t
      fun type id t' => t' = t ∧ t.types.Means id type ∧ operand = unaryType op ∧ id = operand := by
  have ht := hs.table.extend he
  unfold checkUnary
  cases op with
  | neg =>
    have hint := hm.eq_iff ht t.types.means_int
    exact Decides.computes (decides_require_pure (by simp [ValueType.ofUnary, hint])
      fun h => ⟨rfl, hm, hint.mpr h, rfl⟩)
  | not =>
    have hboolean := hm.eq_iff ht t.types.means_boolean
    exact Decides.computes (decides_require_pure (by simp [ValueType.ofUnary, hboolean])
      fun h => ⟨rfl, hm, hboolean.mpr h, rfl⟩)

/-- Whether the first type is below the second is asked of the text. -/
theorem decides_requireSubtype (hs : Sees p d env o) (he : d.types.Extends t.types)
    {actual expected : TypeId} (ha : t.types.Means actual a) (hb : t.types.Means expected b)
    (cause : Cause) (token : String) (span : Span) :
    Decides (o.isSubtype a b = true) (requireSubtype actual expected cause token span) t
      fun _ t' => t' = t ∧ t.types.isSubtype actual expected = true := by
  unfold requireSubtype
  rw [decides_get, ← ha.isSubtype_eq (hs.table.extend he) hs.lineage hb]
  exact (decides_require ..).mono fun _ _ hsub ht => ⟨ht, hsub⟩

theorem decides_requireValue (hs : Sees p d env o) (he : d.types.Extends t.types)
    {actual expected : TypeId} (ha : t.types.Means actual a) (hb : t.types.Means expected b)
    (token : String) (span : Span) :
    Decides (o.isSubtype a b = true) (requireValue actual expected token span) t
      fun _ t' => t' = t ∧ t.types.isSubtype actual expected = true := by
  unfold requireValue
  rw [decides_get, ← ha.isSubtype_eq (hs.table.extend he) hs.lineage hb]
  dsimp only
  cases hsub : t.types.isSubtype actual expected with
  | true => exact ⟨rfl, rfl, rfl⟩
  | false => exact ⟨Bool.false_ne_true, _, rfl⟩

theorem computes_arrayOf {element : TypeId} {e : TypeExpr}
    (he : t.types.denoted? e = some element) :
    Computes (some (.written e.base (e.dims + 1))) (arrayOf element) t fun type id t' =>
      Keeps [] t t' ∧ t'.types.Means id type ∧ t'.types.denoted? e.arrayOf = some id := by
  have hext := extends_arrayOf t.types element
  have harray := denoted?_arrayOf (hext.denoted?_of_some he) (idxOf?_intern t.types _)
  unfold arrayOf
  rw [computes_get]
  exact computes_modify.mpr
    (computes_pure ⟨⟨⟨hext, fun _ _ => rfl, fun _ _ => rfl⟩, rfl⟩, harray, harray⟩)

end

/-! ## The check of an expression -/

section

variable {p : Program} {d : Definition} {env : MethodEnv} {o : Outlook}

mutual

theorem computes_checkExpr (hs : Sees p d env o) (h : Stack d env lo n scope outer frames) :
    ∀ (e : Expr) {t : Typing}, d.types.Extends t.types → t.visible = n → e.ids.Nodup →
      Computes (o.typeOf frames e) (checkExpr env scope e) t (Checked env e t)
  | .literal node value, t, _, _, _ => by
    rw [checkExpr, Outlook.typeOf]
    exact computes_recorded rfl
      (computes_pure ⟨.refl _ t, t.types.means_literal value, .literal (records_record ..)⟩)
  | .var node name, t, he, hn, _ => by
    rw [checkExpr, Outlook.typeOf]
    exact computes_recorded rfl (computes_checkName hs he (hn ▸ h) node name)
  | .field node object name, t, he, hn, hids => by
    rw [Expr.ids_field, List.nodup_cons] at hids
    rw [checkExpr, Outlook.typeOf]
    refine computes_recorded rfl ((computes_checkExpr hs h object he hn hids.2).bind
      fun type id t₁ _ h₁ => ?_)
    refine (computes_checkField hs (he.trans h₁.types) h₁.means name.name _).mono
      fun _ _ t₂ h₂ => ?_
    obtain ⟨rfl, hmeans, classScope, s, hc, hscope, hs', hk, rfl⟩ := h₂
    exact ⟨h₁.toKeeps.mono (by simp), hmeans,
      .field (h₁.hasType.record node _ hids.1) hc hscope hs' hk (records_record ..)⟩
  | .index node array i, t, he, hn, hids => by
    rw [Expr.ids_index, List.nodup_cons, List.mem_append, not_or, List.nodup_append'] at hids
    rw [checkExpr, Outlook.typeOf]
    refine computes_recorded rfl ((computes_checkExpr hs h array he hn hids.2.1).bind
      fun type id t₁ _ h₁ => ?_)
    have he₁ := he.trans h₁.types
    rw [computes_get]
    rcases h₁.means.element_cases (hs.table.extend he₁) with
      ⟨element, elementType, ha, hid, helement⟩ | ⟨ha, hid⟩
    · dsimp only
      rw [ha, hid, Option.bind_some]
      refine (computes_checkExpr hs h i he₁ (h₁.visible.trans hn) hids.2.2.1).bind
        fun subscript id₂ t₂ _ h₂ => ?_
      have hint := h₂.means.eq_iff (hs.table.extend (he₁.trans h₂.types)) t₂.types.means_int
      refine Decides.computes (decides_require_pure (by simp [hint]) fun hsub => ?_)
      obtain rfl := hint.mpr hsub
      have harray := h₁.hasType.step h₂.toStep hids.2.2.2
      exact ⟨(h₁.toKeeps.trans h₂.toKeeps).mono (by simp), helement.extend h₂.types,
        .index (harray.record node _ hids.1.1) (h₂.types.element?_of_some hid)
          (h₂.hasType.record node _ hids.1.2) (records_record ..)⟩
    · dsimp only
      rw [ha, hid]
      exact computes_reject
  | .staticCall node className method args, t, he, hn, hids => by
    rw [Expr.ids_staticCall, List.nodup_cons] at hids
    rw [checkExpr, Outlook.typeOf]
    refine computes_recorded rfl ((computes_staticCallee hs he className method _).bind
      fun m id t₁ _ h₁ => ?_)
    obtain ⟨rfl, hsig, type, classScope, hc, hscope, s, kind, hs', hk, hstatic, rfl⟩ := h₁
    refine (computes_call hsig method _ fun params =>
      decides_checkArgs hs h args m.params he hn hids.2).mono fun _ _ t₂ h₂ => ?_
    obtain ⟨hkeeps, hmeans, signature, hget, hargs, rfl⟩ := h₂
    exact ⟨hkeeps.mono (by simp), hmeans,
      .staticCall ((hkeeps.types.class?_eq _).trans hc) hscope ⟨s, hs', hk, hget⟩ hstatic
        (hargs.record node _ hids.1) (records_record ..)⟩
  | .ownCall node method args, t, he, hn, hids => by
    rw [Expr.ids_ownCall, List.nodup_cons] at hids
    rw [checkExpr, Outlook.typeOf]
    refine computes_recorded rfl ((computes_ownCallee hs he method _).bind fun m id t₁ _ h₁ => ?_)
    obtain ⟨rfl, hsig, s, kind, hs', hk, hallowed, rfl⟩ := h₁
    refine (computes_call hsig method _ fun params =>
      decides_checkArgs hs h args m.params he hn hids.2).mono fun _ _ t₂ h₂ => ?_
    obtain ⟨hkeeps, hmeans, signature, hget, hargs, rfl⟩ := h₂
    refine ⟨hkeeps.mono (by simp), hmeans, .ownCall ⟨s, hs', hk, hget⟩ (fun hstatic => ?_)
      (hargs.record node _ hids.1) (records_record ..)⟩
    simpa [hstatic] using hallowed
  | .methodCall node receiver method args, t, he, hn, hids => by
    rw [Expr.ids_methodCall, List.nodup_cons, List.mem_append, not_or, List.nodup_append'] at hids
    rw [checkExpr, Outlook.typeOf]
    refine computes_recorded rfl ((computes_checkExpr hs h receiver he hn hids.2.1).bind
      fun type id t₁ _ h₁ => ?_)
    have he₁ := he.trans h₁.types
    refine (computes_methodCallee hs he₁ h₁.means receiver method _).bind fun m id₂ t₂ _ h₂ => ?_
    obtain ⟨rfl, hsig, classScope, hc, hscope, s, kind, hs', hk, hvirtual, rfl⟩ := h₂
    refine (computes_call hsig method _ fun params => decides_checkArgs hs h args m.params he₁
      (h₁.visible.trans hn) hids.2.2.1).mono fun _ _ t₃ h₃ => ?_
    obtain ⟨hkeeps, hmeans, signature, hget, hargs, rfl⟩ := h₃
    have hreceiver := h₁.hasType.step hkeeps.toStep hids.2.2.2
    exact ⟨(h₁.toKeeps.trans hkeeps).mono (by simp), hmeans,
      .methodCall (hreceiver.record node _ hids.1.1) ((hkeeps.types.isClass_eq _).trans hc) hscope
        ⟨s, hs', hk, hget⟩ (by simpa using hvirtual) (hargs.record node _ hids.1.2)
        (records_record ..)⟩
  | .this node, t, he, _, _ => by
    rw [checkExpr, Outlook.typeOf]
    refine computes_recorded rfl (Decides.computes (decides_require_pure (by rw [hs.isStatic])
      fun hstatic => ⟨.refl _ t, means_of_class? ((he.class?_eq _).trans hs.type),
        .this ?_ (records_record ..)⟩))
    rw [← hs.isStatic]
    simpa using hstatic
  | .newObject node className, t, he, _, _ => by
    rw [checkExpr, Outlook.typeOf, (hs.table.extend he).knows_eq hs.lineage, base?]
    refine computes_recorded rfl (computes_get.mpr ?_)
    cases hc : t.types.class? className.name with
    | none => exact computes_reject
    | some id =>
      exact computes_pure ⟨.refl _ t, means_of_class? hc, .newObject hc (records_record ..)⟩
  | .newArray node element size, t, he, hn, hids => by
    rw [Expr.ids_newArray, List.nodup_cons] at hids
    rw [checkExpr, Outlook.typeOf]
    refine computes_recorded rfl ((decides_resolveType (hs.table.extend he) hs.lineage
      element).bind_computes fun id t₁ _ h₁ => ?_)
    obtain ⟨hkeeps, hid⟩ := h₁
    have he₁ := he.trans hkeeps.types
    have hvoid : decide (id ≠ TypeId.void) = true ↔ element.valueType ≠ .void := by
      have hiff := (means_valueType.mpr hid).eq_iff (hs.table.extend he₁) t₁.types.means_void
      simp [hiff]
    refine ((decides_require ..).congr hvoid).bind_computes fun _ t₂ _ ht => ?_
    subst ht
    refine (computes_checkExpr hs h size he₁ (hkeeps.visible.trans hn) hids.2).bind
      fun count id₂ t₃ _ h₃ => ?_
    have hint := h₃.means.eq_iff (hs.table.extend (he₁.trans h₃.types)) t₃.types.means_int
    refine ((decides_require ..).congr (by simp [hint])).bind_computes fun _ t₄ hcount ht => ?_
    subst ht
    obtain rfl := hint.mpr hcount
    refine (computes_arrayOf (h₃.types.denoted?_of_some hid)).mono fun _ _ t₅ h₅ => ?_
    have hsize := h₃.hasType.step h₅.1.toStep fun n _ hn' => absurd hn' (by simp)
    exact ⟨((hkeeps.trans h₃.toKeeps).trans h₅.1).mono (by simp), h₅.2.1,
      .newArray (hsize.record node _ hids.1) h₅.2.2 (records_record ..)⟩
  | .length node array, t, he, hn, hids => by
    rw [Expr.ids_length, List.nodup_cons] at hids
    rw [checkExpr, Outlook.typeOf]
    refine computes_recorded rfl ((computes_checkExpr hs h array he hn hids.2).bind
      fun type id t₁ _ h₁ => ?_)
    have hisArray := h₁.means.isArray_eq (hs.table.extend (he.trans h₁.types))
    rw [computes_get, hisArray]
    refine Decides.computes (decides_require_pure Iff.rfl fun harray => ?_)
    exact ⟨h₁.toKeeps.mono (by simp), t₁.types.means_int,
      .length (h₁.hasType.record node _ hids.1) (hisArray.trans harray) (records_record ..)⟩
  | .binary node op left right, t, he, hn, hids => by
    rw [Expr.ids_binary, List.nodup_cons, List.mem_append, not_or, List.nodup_append'] at hids
    rw [checkExpr, Outlook.typeOf]
    refine computes_recorded rfl ((computes_checkExpr hs h left he hn hids.2.1).bind
      fun a id t₁ _ h₁ => ?_)
    have he₁ := he.trans h₁.types
    refine (computes_checkExpr hs h right he₁ (h₁.visible.trans hn) hids.2.2.1).bind
      fun b id₂ t₂ _ h₂ => ?_
    refine (computes_checkBinary hs (he₁.trans h₂.types) (h₁.means.extend h₂.types) h₂.means op
      _).mono fun _ _ t₃ h₃ => ?_
    obtain ⟨rfl, hmeans, hrule⟩ := h₃
    have hleft := h₁.hasType.step h₂.toStep hids.2.2.2
    exact ⟨(h₁.toKeeps.trans h₂.toKeeps).mono (by simp), hmeans,
      .binary (hleft.record node _ hids.1.1) (h₂.hasType.record node _ hids.1.2) hrule
        (records_record ..)⟩
  | .unary node op operand, t, he, hn, hids => by
    rw [Expr.ids_unary, List.nodup_cons] at hids
    rw [checkExpr, Outlook.typeOf]
    refine computes_recorded rfl ((computes_checkExpr hs h operand he hn hids.2).bind
      fun a id t₁ _ h₁ => ?_)
    refine (computes_checkUnary hs (he.trans h₁.types) h₁.means op _).mono fun _ _ t₂ h₂ => ?_
    obtain ⟨rfl, hmeans, rfl, rfl⟩ := h₂
    exact ⟨h₁.toKeeps.mono (by simp), hmeans,
      .unary (h₁.hasType.record node _ hids.1) (records_record ..)⟩
  | .paren node inner, t, he, hn, hids => by
    rw [Expr.ids_paren, List.nodup_cons] at hids
    rw [checkExpr, Outlook.typeOf]
    refine computes_recorded rfl ((computes_checkExpr hs h inner he hn hids.2).mono
      fun _ _ t₁ h₁ => ?_)
    exact ⟨h₁.toKeeps.mono (by simp), h₁.means,
      .paren (h₁.hasType.record node _ hids.1) (records_record ..)⟩

/-- As many arguments as parameters are checked one by one. -/
theorem decides_checkArgs (hs : Sees p d env o) (h : Stack d env lo n scope outer frames) :
    ∀ (args : List Expr) (params : List VarDecl) {ids : List TypeId} {t : Typing},
      d.types.Extends t.types → t.visible = n → (Expr.idsOfList args).Nodup →
      params.map (fun q => t.types.denoted? q.type) = ids.map some →
      args.length = params.length →
      Decides (o.argsFit frames args (params.map (·.type.valueType)) = true)
        (checkArgs env scope args ids) t
        fun _ t' => Keeps (Expr.idsOfList args) t t' ∧ HasTypes t' env args ids
  | [], params, ids, t, _, _, _, hids, hcount => by
    obtain rfl : params = [] := List.length_eq_zero_iff.mp hcount.symm
    obtain rfl : ids = [] := by simpa using hids.symm
    rw [checkArgs, List.map_nil, Outlook.argsFit]
    · exact ⟨rfl, .refl _ t, .nil⟩
    · simp
  | arg :: args, params, ids, t, he, hn, hnodup, hids, hcount => by
    rw [Expr.idsOfList_cons, List.nodup_append'] at hnodup
    obtain ⟨q, params, rfl⟩ := List.exists_cons_of_length_eq_add_one hcount.symm
    rw [List.map_cons] at hids
    obtain ⟨id, ids, rfl, hid, hids⟩ := List.map_eq_cons_iff.mp hids.symm
    rw [checkArgs, List.map_cons, Outlook.argsFit, Bool.and_eq_true, Option.any_eq_true]
    simp only [← exists_and_right, and_assoc]
    refine (computes_checkExpr hs h arg he hn hnodup.1).bind_decides fun a actual t₁ _ h₁ => ?_
    have he₁ := he.trans h₁.types
    refine (decides_requireSubtype hs he₁ h₁.means ((means_valueType.mpr hid.symm).extend h₁.types)
      ..).bind fun _ t₂ _ ht => ?_
    obtain ⟨rfl, hsub⟩ := ht
    refine (decides_checkArgs hs h args params he₁ (h₁.visible.trans hn) hnodup.2.1
      (h₁.types.denoted?_params hids.symm) (by simpa using hcount)).mono fun _ t₃ _ h₃ => ?_
    have harg := h₁.hasType.step h₃.1.toStep hnodup.2.2
    rw [Expr.idsOfList_cons]
    exact ⟨h₁.toKeeps.trans h₃.1, .cons harg ((h₃.1.types.isSubtype_eq _ _).trans hsub) h₃.2⟩

end

end

end Typing

end IcLir
