import IcLir.Proofs.ClassScopes
import IcLir.Tree.Traversal
import Mathlib.Data.List.Nodup

/-
  What the definition stage leaves behind. The first loop enters all classes into the type
  table, the second gives each its scopes. `meets_defineProgram` says that the stage ends with a
  rejection or with a `Defined` state, in which every class of the program is a `ClassOf`.
-/

namespace IcLir

/-- Every node of a program has an identity of its own. -/
structure Program.DistinctNodes (p : Program) : Prop where
  methods : (p.methods.map (·.id)).Nodup
  stmts : (p.stmts.map Stmt.id).Nodup
  exprs : (p.exprs.map Expr.id).Nodup

/-- A method is known by its identity. -/
theorem Program.DistinctNodes.method_ext {p : Program} (h : p.DistinctNodes) {m m' : MethodDecl}
    (hm : m ∈ p.methods) (hm' : m' ∈ p.methods) (hid : m.id = m'.id) : m = m' :=
  List.inj_on_of_nodup_map h.methods hm hm' hid

namespace Definition

open Pass TypeTable

variable {d : Definition} {t : TypeTable} {done classes : List ClassDecl} {c : ClassDecl}

variable {t' : TypeTable} {name : String} {superclass : Option String} {new : TypeId}
    {rest : List ClassDecl} {p : Program}

/-! ## Entering the classes -/

/-- What the first loop leaves: all classes are entered, and there is one scope. -/
structure Registered (classes : List ClassDecl) (d : Definition) : Prop where
  table : ClassTable classes d.types
  size : d.types.size = classId classes.length
  declarations : ∀ i c, classes[i]? = some c → d.declarations.get? (classId i) = some c
  sound : Sound d
  scopes_size : d.scopes.size = 1
  isGlobal : (d.scopes.scope ScopeTree.global).kind = .global
  entries : d.entries = []

theorem registered_initial (options : Options) :
    Registered [] (Context.initial options).definition where
  table := classTable_initial
  size := rfl
  declarations := by simp
  sound := by
    have hscope : ∀ id, (ScopeTree.initial.scope id).enclosing = [] ∧
        ∀ name, (ScopeTree.initial.scope id).get? name = none := by
      intro id
      cases id <;> exact ⟨rfl, fun _ => rfl⟩
    have hscopes : (Context.initial options).definition.scopes = ScopeTree.initial := rfl
    refine ⟨?_, ?_⟩
    · intro id j hj
      rw [hscopes, (hscope id).1] at hj
      simp at hj
    · intro id name s hs
      rw [hscopes, (hscope id).2 name] at hs
      simp at hs
  scopes_size := rfl
  isGlobal := rfl
  entries := rfl

theorem meets_registerClass (h : Registered done d) (c : ClassDecl) :
    Meets CompileError.IsRejection (registerClass c) d fun _ d' => Registered (done ++ [c]) d' := by
  unfold registerClass
  rw [meets_bind, meets_get]
  dsimp only
  cases hadd : d.types.addClass c.name.name (c.superclass.map (·.name)) with
  | error err => exact ⟨_, rfl⟩
  | ok r =>
    obtain ⟨id, types⟩ := r
    obtain ⟨hid, htable, hsize⟩ := h.table.addClass h.size hadd
    dsimp only
    rw [meets_bind, meets_modify]
    refine meets_insertSymbol fun scopes hi => ?_
    have hglobal : ScopeTree.global < d.scopes.size := by
      rw [h.scopes_size]
      exact Nat.zero_lt_one
    have hextends := ScopeTree.extends_insert hi hglobal
    refine ⟨htable, hsize, ?_, ⟨?_, ?_⟩, ?_, ?_, h.entries⟩
    · intro i c' hi'
      change (d.declarations.insert id c).get? (classId i) = some c'
      rw [hid, OrderedMap.get?_insert]
      rcases Nat.lt_or_ge i done.length with hlt | hge
      · rw [List.getElem?_append_left hlt] at hi'
        rw [if_neg fun heq => Nat.ne_of_lt hlt (classId_inj heq)]
        exact h.declarations i c' hi'
      · rw [List.getElem?_append_right hge, List.getElem?_singleton] at hi'
        split at hi'
        · next hzero =>
          rw [if_pos (by rw [show i = done.length by omega])]
          exact hi'
        · simp at hi'
    · exact ScopeTree.ordered_insert hi hglobal h.sound.ordered
    · refine h.sound.symbols.insert hi hglobal ?_
      rw [h.isGlobal]
      rfl
    · exact (ScopeTree.size_insert hi).trans h.scopes_size
    · exact (hextends.kind _ hglobal).trans h.isGlobal

/-! ## Giving the classes their scopes -/

/-- The state in which the classes `done` of `classes` have their scopes. -/
structure Scopes (classes done : List ClassDecl) (d : Definition) : Prop where
  table : ClassTable classes d.types
  declarations : ∀ i c, classes[i]? = some c → d.declarations.get? (classId i) = some c
  sound : Sound d
  nonempty : 0 < d.scopes.size
  isGlobal : (d.scopes.scope ScopeTree.global).kind = .global
  classOf : ∀ i c, done[i]? = some c → ∃ scope parent, ClassOf d c (classId i) scope parent
  entries : ∀ e ∈ d.entries, ∃ c ∈ done, e.method ∈ c.methods ∧ e.method.kind = .static

theorem Registered.scopes (h : Registered classes d) :
    Scopes classes [] d where
  table := h.table
  declarations := h.declarations
  sound := h.sound
  nonempty := by rw [h.scopes_size]; exact Nat.zero_lt_one
  isGlobal := h.isGlobal
  classOf := by simp
  entries := by simp [h.entries]

/-- The scope that the next class goes into is there already. -/
theorem Scopes.exists_parent (h : Scopes (done ++ c :: rest) done d) :
    ∃ parent, parent < d.scopes.size ∧ LiesIn d (classId done.length) parent := by
  have hi : (done ++ c :: rest)[done.length]? = some c := by simp
  unfold LiesIn
  rcases h.table.superclass?_cases hi with hnone | ⟨j, b, hj, hb, hsome⟩
  · rw [hnone]
    exact ⟨ScopeTree.global, h.nonempty, rfl⟩
  · rw [hsome]
    rw [List.getElem?_append_left hj] at hb
    obtain ⟨scope, parent, hb⟩ := h.classOf j b hb
    exact ⟨scope, hb.lt, hb.get?⟩

/-- A class has its superclass among the classes before it. -/
theorem superclass?_ne (h : ClassTable classes t) {i j : Nat} (hi : classes[i]? = some c)
    (hij : i ≤ j) : ∀ base, t.superclass? (classId i) = some base → base ≠ classId j := by
  rintro base hbase rfl
  rcases h.superclass?_cases hi with hnone | ⟨k, _, hk, _, hsome⟩
  · rw [hnone] at hbase
    simp at hbase
  · rw [hsome] at hbase
    have := classId_inj (Option.some.inj hbase)
    omega

theorem meets_defineNextClass (h : Scopes (done ++ c :: rest) done d) (entryMethod : String)
    (hids : ((Program.mk (done ++ c :: rest)).methods.map (·.id)).Nodup)
    (hbodies : (bodyIds (Program.mk (done ++ c :: rest)).methods).Nodup) :
    Meets CompileError.IsRejection (defineClass entryMethod c) d fun _ d' =>
      Scopes (done ++ c :: rest) (done ++ [c]) d' := by
  have hi : (done ++ c :: rest)[done.length]? = some c := by simp
  have hmethods : (Program.mk (done ++ c :: rest)).methods =
      (Program.mk done).methods ++ (c.methods ++ (Program.mk rest).methods) := by
    simp [Program.methods]
  rw [hmethods, List.map_append, List.map_append, List.nodup_append, List.nodup_append] at hids
  rw [hmethods, bodyIds_append, bodyIds_append, List.nodup_append, List.nodup_append] at hbodies
  obtain ⟨parent, hlt, hin⟩ := h.exists_parent
  refine (meets_defineClass h.sound entryMethod c (h.table.class? _ c hi) hlt hin
    (superclass?_ne h.table hi (Nat.le_refl _)) hids.2.1.1 hbodies.2.1.1).mono ?_
  rintro _ d' ⟨hstep, hsound, hclass⟩
  refine ⟨h.table.extend hstep.types, ?_, hsound,
    Nat.lt_of_lt_of_le h.nonempty hstep.scopes.size_le,
    (hstep.scopes.kind _ h.nonempty).trans h.isGlobal, ?_, ?_⟩
  · intro i c' hi'
    rw [hstep.declarations]
    exact h.declarations i c' hi'
  · intro i c' hi'
    rcases Nat.lt_or_ge i done.length with hlt | hge
    · rw [List.getElem?_append_left hlt] at hi'
      obtain ⟨scope', parent', hc'⟩ := h.classOf i c' hi'
      have hmem : ∀ m ∈ c'.methods, m ∈ (Program.mk done).methods := fun m hm =>
        List.mem_flatMap.mpr ⟨c', List.mem_of_getElem? hi', hm⟩
      -- the nodes of the earlier class are none of the new class's
      refine ⟨scope', parent', hc'.step h.sound hstep ?_ ?_ ?_ ?_⟩
      · exact fun heq => Nat.ne_of_lt hlt (classId_inj heq)
      · have hi'' : (done ++ c :: rest)[i]? = some c' := by
          rw [List.getElem?_append_left hlt]
          exact hi'
        exact superclass?_ne h.table hi'' (Nat.le_of_lt hlt)
      · intro m hm hm'
        exact hids.2.2 m.id (List.mem_map_of_mem (hmem m hm)) m.id (List.mem_append_left _ hm') rfl
      · intro n hn hn'
        obtain ⟨m, hm, hn⟩ := List.mem_flatMap.mp hn
        exact hbodies.2.2 n (List.mem_flatMap.mpr ⟨m, hmem m hm, hn⟩) n
          (List.mem_append_left _ hn') rfl
    · rw [List.getElem?_append_right hge, List.getElem?_singleton] at hi'
      split at hi'
      · next hzero =>
        obtain rfl := Option.some.inj hi'
        obtain rfl : i = done.length := by omega
        exact ⟨_, _, hclass⟩
      · simp at hi'
  · intro e he
    rcases hstep.entries e he with he | ⟨hm, hstatic⟩
    · obtain ⟨c', hc', hm⟩ := h.entries e he
      exact ⟨c', List.mem_append_left _ hc', hm⟩
    · exact ⟨c, by simp, hm, hstatic⟩

/-! ## The whole program -/

/-- Every class has its scope and its members in it. -/
structure ClassesDefined (classes : List ClassDecl) (d : Definition) : Prop where
  table : ClassTable classes d.types
  declarations : ∀ i c, classes[i]? = some c → d.declarations.get? (classId i) = some c
  sound : Sound d
  isGlobal : (d.scopes.scope ScopeTree.global).kind = .global
  classDefined : ∀ i c, classes[i]? = some c →
    ∃ scope parent, ClassDefined d c (classId i) scope parent

theorem Scopes.classesDefined (h : Scopes classes classes d) : ClassesDefined classes d where
  table := h.table
  declarations := h.declarations
  sound := h.sound
  isGlobal := h.isGlobal
  classDefined i c hi := by
    obtain ⟨scope, parent, hc⟩ := h.classOf i c hi
    exact ⟨scope, parent, hc.toClassDefined⟩

/-- What the stage leaves behind. -/
abbrev Defined (p : Program) (d : Definition) : Prop := Scopes p.classes p.classes d

/-- An entry method is a static method of one of the classes. -/
def IsEntryOf (p : Program) (e : Entry) : Prop :=
  ∃ c ∈ p.classes, e.method ∈ c.methods ∧ e.method.kind = .static

theorem meets_findEntry (h : Defined p d) (entryMethod : String) :
    Meets CompileError.IsRejection (findEntry entryMethod) d fun e d' =>
      Defined p d' ∧ IsEntryOf p e := by
  unfold findEntry
  rw [meets_bind, meets_get]
  match hd : d.entries with
  | [] => exact ⟨_, rfl⟩
  | [e] => exact ⟨h, h.entries e (by simp [hd])⟩
  | _ :: e :: _ => exact ⟨_, rfl⟩

theorem meets_defineProgram (hp : p.DistinctNodes) (options : Options) (entryMethod : String) :
    Meets CompileError.IsRejection (defineProgram entryMethod p)
      (Context.initial options).definition fun e d => Defined p d ∧ IsEntryOf p e := by
  have hbodies : (bodyIds p.methods).Nodup := by
    have := hp.stmts
    rwa [Program.stmts, List.map_flatMap] at this
  unfold defineProgram
  refine (meets_forM (fun done d => Registered done d) p.classes ?_
    (registered_initial options)).bind ?_
  · rintro done c rest - d h
    exact meets_registerClass h c
  · intro _ d₁ hregistered
    refine (meets_forM (fun done d => Scopes p.classes done d) p.classes ?_
      hregistered.scopes).bind ?_
    · rintro done c rest hclasses d h
      have hids := hp.methods
      rw [show p = ⟨done ++ c :: rest⟩ by rw [← hclasses]] at hids hbodies
      rw [hclasses] at h ⊢
      exact meets_defineNextClass h entryMethod hids hbodies
    · intro _ d₂ hdefined
      exact meets_findEntry hdefined entryMethod

end Definition

end IcLir
