import IcLir.Proofs.MemberRules
import IcLir.Proofs.ProgramScopes

/-
  The definition stage accepts exactly the well-formed programs. Its two loops run over the
  classes: the first asks for new names and for superclasses that come before, the second for
  everything inside a class. When a class is looked at, the scopes of all classes before it hold
  exactly their members and meet the rules (`ClassesFilled`), so the superclasses found through
  the scope tree are those that the program text names (`ClassesFilled.above`).
-/

namespace IcLir

namespace Definition

open Pass TypeTable

variable {d : Definition} {classes done : List ClassDecl}

/-! ## Entering the classes -/

/-- What is required of a class after the classes `done` to be entered. -/
structure Enters (done : List ClassDecl) (c : ClassDecl) : Prop where
  new : c.name.name ∉ done.map (·.name.name)
  not_builtIn : c.name.name ∉ Primitive.all.map Primitive.text
  superclass : ∀ base, c.superclass = some base → base.name ∈ done.map (·.name.name)

theorem isSome_named?_iff (name : String) :
    (Primitive.named? name).isSome = true ↔ name ∈ Primitive.all.map Primitive.text := by
  unfold Primitive.named?
  rw [List.find?_isSome, List.mem_map]
  simp

theorem enters_iff {t : TypeTable} (h : ClassTable done t) (c : ClassDecl) :
    (∃ r, t.addClass c.name.name (c.superclass.map (·.name)) = .ok r) ↔ Enters done c := by
  have hclass : ∀ name, (t.class? name).isSome = true ↔ name ∈ done.map (·.name.name) :=
    fun name => h.isSome_base?_iff (.named name)
  unfold addClass
  by_cases hnew : ((t.class? c.name.name).isSome || (Primitive.named? c.name.name).isSome) = true
  · rw [if_pos hnew]
    rw [Bool.or_eq_true, hclass, isSome_named?_iff] at hnew
    constructor
    · intro hr
      obtain ⟨r, hr⟩ := hr
      simp at hr
    · intro he
      rcases hnew with hold | hbuiltIn
      · exact absurd hold he.new
      · exact absurd hbuiltIn he.not_builtIn
  · rw [if_neg hnew]
    rw [Bool.or_eq_true, hclass, isSome_named?_iff, not_or] at hnew
    cases hsuper : c.superclass with
    | none => exact ⟨fun _ => ⟨hnew.1, hnew.2, by simp [hsuper]⟩, fun _ => ⟨_, rfl⟩⟩
    | some base =>
      dsimp only [Option.map_some]
      cases hbase : t.class? base.name with
      | none =>
        constructor
        · intro hr
          obtain ⟨r, hr⟩ := hr
          simp at hr
        · intro he
          have hmem := (hclass base.name).mpr (he.superclass base hsuper)
          rw [hbase] at hmem
          simp at hmem
      | some id =>
        refine ⟨fun _ => ⟨hnew.1, hnew.2, ?_⟩, fun _ => ⟨_, rfl⟩⟩
        intro base' hbase'
        obtain rfl : base = base' := Option.some.inj (hsuper.symm.trans hbase')
        exact (hclass base.name).mp (by rw [hbase]; rfl)

/-- What the first loop leaves; the global scope has the names of the classes. -/
structure Entered (classes : List ClassDecl) (d : Definition) : Prop
    extends Registered classes d where
  names : d.names ScopeTree.global = classes.map (·.name.name)

theorem decides_registerClass (h : Entered done d) (c : ClassDecl) :
    Decides (Enters done c) (registerClass c) d fun _ d' => Entered (done ++ [c]) d' := by
  have hdecide : Decides (Enters done c) (registerClass c) d fun _ d' =>
      d'.names ScopeTree.global = (done ++ [c]).map (·.name.name) := by
    unfold registerClass
    rw [decides_get]
    dsimp only
    cases hadd : d.types.addClass c.name.name (c.superclass.map (·.name)) with
    | error e =>
      refine ⟨fun he => ?_, _, rfl⟩
      obtain ⟨r, hr⟩ := (enters_iff h.table c).mpr he
      rw [hadd] at hr
      simp at hr
    | ok r =>
      obtain ⟨id, types⟩ := r
      have henters : Enters done c := (enters_iff h.table c).mp ⟨_, hadd⟩
      have hglobal : ScopeTree.global < d.scopes.size := by
        rw [h.scopes_size]
        exact Nat.zero_lt_one
      dsimp only
      rw [decides_modify]
      refine ((decides_insertSymbol _ ScopeTree.global c.name .className id).congr ?_).mono ?_
      · refine ⟨fun _ => henters, fun _ => ?_⟩
        change c.name.name ∉ d.names ScopeTree.global
        rw [h.names]
        exact henters.new
      · intro _ d' _ hd'
        obtain ⟨scopes, hi, rfl⟩ := hd'
        have hnames := names_insert hi hglobal
        rw [List.map_append, ← h.names]
        exact hnames
  refine (hdecide.and_meets (meets_registerClass h.toRegistered c)).mono ?_
  intro _ d' _ hd'
  exact ⟨hd'.2, hd'.1⟩

theorem entered_initial (options : Options) : Entered [] (Context.initial options).definition :=
  ⟨registered_initial options, rfl⟩

/-! ## The superclasses in the text and in the tree -/

/-- Looking for a class among those before finds it, with its own superclasses behind it. -/
theorem superclassesFrom_take {t : TypeTable} (h : ClassTable classes t) {j : Nat} {b : ClassDecl}
    (hj : classes[j]? = some b) {i : Nat} (hij : j < i) (hi : i ≤ classes.length) :
    ClassDecl.superclassesFrom (classes.take i).reverse (some b.name.name) =
      b :: b.superclasses (classes.take j) := by
  induction i with
  | zero => omega
  | succ i ih =>
    have hlt : i < classes.length := hi
    have hget : classes[i]? = some classes[i] := List.getElem?_eq_getElem hlt
    rw [List.take_succ_eq_append_getElem hlt, List.reverse_append, List.reverse_singleton,
      List.singleton_append, ClassDecl.superclassesFrom]
    by_cases heq : j = i
    · subst heq
      obtain rfl : classes[j] = b := Option.some.inj (hget.symm.trans hj)
      rw [if_pos rfl]
      rfl
    · have hne : ¬ classes[i].name.name = b.name.name := fun hname =>
        heq (h.index_unique hj hget hname.symm)
      rw [if_neg hne]
      exact ih (by omega) (Nat.le_of_lt hlt)

/-- The state in which the classes `done` have their members, in scopes before number `k`. -/
structure ClassesFilled (classes done : List ClassDecl) (k : ScopeId) (d : Definition) : Prop where
  table : ClassTable classes d.types
  declarations : ∀ i c, classes[i]? = some c → d.declarations.get? (classId i) = some c
  sound : Sound d
  pos : 0 < k
  le : k ≤ d.scopes.size
  isGlobal : (d.scopes.scope ScopeTree.global).kind = .global
  filled : ∀ i c, done[i]? = some c → ∃ scope parent, scope < k ∧
    ClassFilled d c (classId i) scope parent ∧ c.MembersFit (c.superclasses (classes.take i))

theorem Entered.classesFilled (h : Entered classes d) :
    ClassesFilled classes [] d.scopes.size d where
  table := h.table
  declarations := h.declarations
  sound := h.sound
  pos := by rw [h.scopes_size]; exact Nat.zero_lt_one
  le := Nat.le_refl _
  isGlobal := h.isGlobal
  filled := by simp

namespace ClassesFilled

variable {done rest : List ClassDecl} {c : ClassDecl} {k : ScopeId} {d d' : Definition}

/-- What is finished stays so while younger scopes are worked on. -/
theorem step (h : ClassesFilled (done ++ rest) done k d) (hs : Grows k d d') (hsound : Sound d')
    (hclass : ∀ i, i < done.length →
      d'.scopes.classScopes.get? (classId i) = d.scopes.classScopes.get? (classId i)) :
    ClassesFilled (done ++ rest) done k d' where
  table := h.table.extend hs.types
  declarations := by rw [hs.declarations]; exact h.declarations
  sound := hsound
  pos := h.pos
  le := Nat.le_trans h.le hs.scopes.size_le
  isGlobal := (hs.scopes.kind _ (Nat.lt_of_lt_of_le h.pos h.le)).trans h.isGlobal
  filled i c hi := by
    have hlt : i < done.length := (List.getElem?_eq_some_iff.mp hi).1
    have hi' : (done ++ rest)[i]? = some c := by rw [List.getElem?_append_left hlt]; exact hi
    obtain ⟨scope, parent, hscope, hc, hfit⟩ := h.filled i c hi
    refine ⟨scope, parent, hscope, hc.step h.sound hs hscope (hclass i hlt) ?_, hfit⟩
    intro base hbase
    rcases h.table.superclass?_cases hi' with hnone | ⟨j, b, hj, _, hsome⟩
    · rw [hnone] at hbase
      simp at hbase
    · obtain rfl : classId j = base := Option.some.inj (hsome.symm.trans hbase)
      exact hclass j (Nat.lt_trans hj hlt)

/-- The scopes outward from a class are those of the superclasses that the text gives. -/
theorem above (h : ClassesFilled (done ++ rest) done k d) {i : Nat}
    (hi : (done ++ rest)[i]? = some c) (hle : i ≤ done.length) {parent : ScopeId}
    (hin : LiesIn d (classId i) parent) :
    Above d (c.superclasses ((done ++ rest).take i)) parent := by
  induction i using Nat.strongRecOn generalizing c parent with
  | ind i ih =>
    have hilt : i < (done ++ rest).length := (List.getElem?_eq_some_iff.mp hi).1
    unfold LiesIn superclass? at hin
    rcases h.table.superclass i c hi with ⟨hnone, ha⟩ | ⟨base, j, b, hbase, hj, hb, hname, ha⟩
    · rw [ha] at hin
      have hnil : c.superclasses ((done ++ rest).take i) = [] := by
        rw [ClassDecl.superclasses, hnone, Option.map_none, ClassDecl.superclassesFrom]
      rw [hnil, Above, show parent = ScopeTree.global from hin, SymbolTable.isClass, h.isGlobal]
      rfl
    · rw [ha] at hin
      have hcons : c.superclasses ((done ++ rest).take i) =
          b :: b.superclasses ((done ++ rest).take j) := by
        rw [ClassDecl.superclasses, hbase, Option.map_some, ← hname]
        exact superclassesFrom_take h.table hb hj (Nat.le_of_lt hilt)
      have hjlt : j < done.length := Nat.lt_of_lt_of_le hj hle
      obtain ⟨scope, parent', _, hfilled, hfit⟩ :=
        h.filled j b (by rw [← List.getElem?_append_left hjlt]; exact hb)
      obtain rfl : scope = parent := Option.some.inj (hfilled.get?.symm.trans hin)
      rw [hcons]
      exact ⟨classId j, parent', hfilled, hfit, ih j hj hb (Nat.le_of_lt hjlt) hfilled.liesIn⟩

/-- The scope that the next class goes into is there already. -/
theorem exists_parent (h : ClassesFilled (done ++ c :: rest) done k d) :
    ∃ parent, parent < k ∧ LiesIn d (classId done.length) parent := by
  have hi : (done ++ c :: rest)[done.length]? = some c := by simp
  unfold LiesIn
  rcases h.table.superclass?_cases hi with hnone | ⟨j, b, hj, hb, hsome⟩
  · rw [hnone]
    exact ⟨ScopeTree.global, h.pos, rfl⟩
  · rw [hsome]
    rw [List.getElem?_append_left hj] at hb
    obtain ⟨scope, _, hscope, hb, _⟩ := h.filled j b hb
    exact ⟨scope, hscope, hb.get?⟩

/-- One more class is finished. -/
theorem append (h : ClassesFilled (done ++ c :: rest) done k d) (hle : k ≤ d.scopes.size)
    {scope parent : ScopeId} (hscope : scope < d.scopes.size)
    (hc : ClassFilled d c (classId done.length) scope parent)
    (hfit : c.MembersFit (c.superclasses done)) :
    ClassesFilled (done ++ c :: rest) (done ++ [c]) d.scopes.size d where
  table := h.table
  declarations := h.declarations
  sound := h.sound
  pos := Nat.lt_of_lt_of_le h.pos hle
  le := Nat.le_refl _
  isGlobal := h.isGlobal
  filled i c' hi := by
    rcases Nat.lt_or_ge i done.length with hlt | hge
    · rw [List.getElem?_append_left hlt] at hi
      obtain ⟨scope', parent', hscope', hrest⟩ := h.filled i c' hi
      exact ⟨scope', parent', Nat.lt_of_lt_of_le hscope' hle, hrest⟩
    · rw [List.getElem?_append_right hge, List.getElem?_singleton] at hi
      split at hi
      · obtain rfl := Option.some.inj hi
        obtain rfl : i = done.length := by omega
        exact ⟨scope, parent, hscope, hc, by rw [List.take_left]; exact hfit⟩
      · simp at hi

end ClassesFilled

/-! ## One class -/

/-- What is required inside a class with the superclasses `above`. -/
structure ClassFits (classes above : List ClassDecl) (c : ClassDecl) : Prop where
  fieldTypes : ∀ f ∈ c.fields, f.type.base.IsKnown (classes.map (·.name.name))
  members : c.MembersFit above
  methods : ∀ m ∈ c.methods, m.WellScoped (classes.map (·.name.name))

/-- The rules for a class, in the order in which they are checked. -/
theorem classFits_iff {above : List ClassDecl} {c : ClassDecl} :
    ClassFits classes above c ↔
      EachAfter (fun done f => f.type.base.IsKnown (classes.map (·.name.name)) ∧
          f.name.name ∉ done.map (·.name.name) ∧ NoMember above f.name.name) c.fields ∧
        EachAfter (fun done m => KnownHead classes m ∧ MethodFits above c.fields done m) c.methods ∧
        ∀ m ∈ c.methods, m.WellScoped (classes.map (·.name.name)) := by
  constructor
  · intro h
    obtain ⟨hfields, hmethods⟩ := membersFit_iff.mp h.members
    have hheads : ∀ m ∈ c.methods, KnownHead classes m := fun m hm =>
      ⟨(h.methods m hm).result, (h.methods m hm).params⟩
    exact ⟨eachAfter_and.mpr ⟨eachAfter_iff_forall.mpr h.fieldTypes, hfields⟩,
      eachAfter_and.mpr ⟨eachAfter_iff_forall.mpr hheads, hmethods⟩, h.methods⟩
  · intro h
    obtain ⟨htypes, hfields⟩ := eachAfter_and.mp h.1
    obtain ⟨_, hmethods⟩ := eachAfter_and.mp h.2.1
    exact ⟨eachAfter_iff_forall.mp htypes, membersFit_iff.mpr ⟨hfields, hmethods⟩, h.2.2⟩

theorem decides_defineClass {rest : List ClassDecl} {c : ClassDecl}
    (h : ClassesFilled (done ++ c :: rest) done d.scopes.size d) (entryMethod : String) :
    Decides (ClassFits (done ++ c :: rest) (c.superclasses done) c) (defineClass entryMethod c) d
      fun _ d' => ClassesFilled (done ++ c :: rest) (done ++ [c]) d'.scopes.size d' ∧
        d'.entries =
          c.methods.foldl (entriesWith entryMethod (classId done.length)) d.entries := by
  have hi : (done ++ c :: rest)[done.length]? = some c := by simp
  have htake : (done ++ c :: rest).take done.length = done := List.take_left
  have hbase := superclass?_ne h.table hi (Nat.le_refl _)
  obtain ⟨parent, hparent, hin⟩ := h.exists_parent
  let type := classId done.length
  suffices hdecide : Decides (ClassFits (done ++ c :: rest) (c.superclasses done) c)
      (defineClass entryMethod c) d fun _ d' =>
        ClassesFilled (done ++ c :: rest) done d.scopes.size d' ∧
          ClassFilled d' c type d.scopes.size parent ∧
          d'.entries = c.methods.foldl (entriesWith entryMethod type) d.entries by
    refine hdecide.mono ?_
    intro _ d' hfits hd'
    obtain ⟨hfilled, hc, hentries⟩ := hd'
    exact ⟨hfilled.append hfilled.le hc.lt hc hfits.members, hentries⟩
  rw [classFits_iff]
  unfold defineClass
  rw [decides_get]
  have hpromised : Decides True (promised (d.types.class? c.name.name)
      (.unregisteredClass c.name.name)) d fun a t => a = type ∧ t = d :=
    decides_promised (h.table.class? _ c hi) ⟨rfl, rfl⟩
  refine hpromised.bind_of_true fun a t hat => ?_
  obtain ⟨rfl, rfl⟩ := hat
  -- the scope of the class is opened
  have hopen : Meets CompileError.IsRejection
      (openScope (·.addClassScope type c.name.name (t.types.superclass? type))) t
      fun scope d₁ => scope = t.scopes.size ∧ ClassOpened type parent t d₁ :=
    meets_openClass h.sound hparent type c.name.name _ hin.parent_eq fun d₁ hd₁ => ⟨rfl, hd₁⟩
  refine ((decides_openScope _).and_meets hopen).bind_of_true fun scope d₁ hd₁ => ?_
  obtain ⟨_, rfl, hopened⟩ := hd₁
  have hclass₁ : ∀ i, i < done.length →
      d₁.scopes.classScopes.get? (classId i) = t.scopes.classScopes.get? (classId i) := by
    intro i hlt
    rw [hopened.classScopes]
    exact OrderedMap.get?_insert_of_ne _ _ fun heq => Nat.ne_of_lt hlt (classId_inj heq)
  have h₁ := h.step hopened.toGrows hopened.sound hclass₁
  have hfilling : Filling (done ++ c :: rest) (c.superclasses done) t.scopes.size parent [] [] d₁
      d₁ := by
    refine ⟨hopened.declaring, h₁.table, ⟨names_eq_nil hopened.empty, by simp, by simp⟩, ?_⟩
    have hin₁ : LiesIn d₁ type parent := by
      refine hin.extend hopened.types fun base hb => ?_
      rw [hopened.classScopes]
      exact OrderedMap.get?_insert_of_ne _ _ (hbase base hb)
    have habove := h₁.above hi (Nat.le_refl _) hin₁
    rw [htake] at habove
    exact habove
  -- its members are declared, and its methods get their scopes
  refine (decides_declareFields hfilling c.fields).bind fun _ d₂ _ hd₂ => ?_
  refine (decides_declareMethods hd₂.1 entryMethod type c.methods).bind fun _ d₃ _ hd₃ => ?_
  obtain ⟨hfilled₃, hentries₃⟩ := hd₃
  have hlt₃ : t.scopes.size < d₃.scopes.size := hfilled₃.isOpen.lt
  refine (decides_defineMethods hfilled₃.table hfilled₃.sound hlt₃ (Nat.succ_le_of_lt hlt₃)
    c.methods).mono ?_
  intro _ d₄ _ hkept
  have hgrows : Grows t.scopes.size d₁ d₄ :=
    hfilled₃.step.toGrows.trans (hkept.toGrows.mono (Nat.le_succ _))
  have hclass : d₄.scopes.classScopes = d₁.scopes.classScopes :=
    hkept.classScopes.trans hfilled₃.step.classScopes
  refine ⟨h₁.step hgrows hkept.sound fun i _ => by rw [hclass], ?_, ?_⟩
  · have hfilled : ClassFilled d₃ c type t.scopes.size parent := by
      refine ⟨hopened.classDefined hfilled₃.toDeclaring hin hbase,
        hfilled₃.table.class? _ c hi, ?_, hfilled₃.holds⟩
      rw [hfilled₃.step.declarations, hopened.declarations]
      exact h.declarations _ c hi
    exact hfilled.step hfilled₃.sound hkept.toGrows (Nat.lt_succ_self _)
      (by rw [hkept.classScopes]) fun base _ => by rw [hkept.classScopes]
  · rw [hkept.entries, hentries₃, hd₂.2, hopened.entries]

/-! ## The whole program -/

theorem length_entriesWith (entryMethod : String) (owner : TypeId) (methods : List MethodDecl)
    (entries : List Entry) :
    (methods.foldl (entriesWith entryMethod owner) entries).length =
      entries.length + (methods.filter (·.isEntry entryMethod)).length := by
  induction methods generalizing entries with
  | nil => rfl
  | cons m methods ih =>
    rw [List.foldl_cons, ih, entriesWith, List.filter_cons]
    by_cases hm : m.isEntry entryMethod = true
    · rw [if_pos hm, if_pos hm, List.length_append, List.length_singleton, List.length_cons]
      omega
    · rw [if_neg hm, if_neg hm]

/-- An entry has the shape of an entry method, and belongs to the class that it names. -/
def EntryIn (entryMethod : String) (classes : List ClassDecl) (e : Entry) : Prop :=
  ∃ i c, classes[i]? = some c ∧ e.owner = classId i ∧ e.method ∈ c.methods ∧
    e.method.isEntry entryMethod = true

theorem mem_entriesWith {entryMethod : String} {owner : TypeId} {methods : List MethodDecl}
    {entries : List Entry} {e : Entry}
    (h : e ∈ methods.foldl (entriesWith entryMethod owner) entries) :
    e ∈ entries ∨
      e.owner = owner ∧ e.method ∈ methods ∧ e.method.isEntry entryMethod = true := by
  induction methods generalizing entries with
  | nil => exact .inl h
  | cons m methods ih =>
    rcases ih h with hmem | ⟨howner, hmethod, hentry⟩
    · unfold entriesWith at hmem
      split at hmem
      · next hm =>
        rcases List.mem_append.mp hmem with hmem | hmem
        · exact .inl hmem
        · obtain rfl := List.mem_singleton.mp hmem
          exact .inr ⟨rfl, List.mem_cons_self, hm⟩
      · exact .inl hmem
    · exact .inr ⟨howner, List.mem_cons_of_mem _ hmethod, hentry⟩

theorem decides_findEntry (entryMethod : String) (d : Definition) :
    Decides (d.entries.length = 1) (findEntry entryMethod) d
      fun e d' => d' = d ∧ e ∈ d.entries := by
  unfold findEntry
  rw [decides_get]
  match hd : d.entries with
  | [] => exact decides_reject.congr (by simp)
  | [e] => exact ⟨rfl, rfl, List.mem_singleton_self e⟩
  | _ :: e :: _ => exact decides_reject.congr (by simp)

/-- The rules of declaration are those of the two loops and the one about the entry method. -/
theorem wellFormed_iff {p : Program} {entryMethod : String} :
    p.WellFormed entryMethod ↔
      EachAfter Enters p.classes ∧
        EachAfter (fun done c => ClassFits p.classes (c.superclasses done) c) p.classes ∧
        (p.methods.filter (·.isEntry entryMethod)).length = 1 := by
  constructor
  · intro h
    have hnew := eachAfter_not_mem.mpr h.classes_nodup
    refine ⟨?_, ?_, h.entry⟩
    · intro done c rest hp
      exact ⟨hnew done c rest hp, h.not_builtIn c (by simp [hp]), h.superclass done c rest hp⟩
    · intro done c rest hp
      have hc : c ∈ p.classes := by simp [hp]
      exact ⟨h.fieldTypes c hc, h.members done c rest hp,
        fun m hm => h.methods m (List.mem_flatMap.mpr ⟨c, hc, hm⟩)⟩
  · intro h
    obtain ⟨henters, hfits, hentry⟩ := h
    refine ⟨eachAfter_not_mem.mp fun done c rest hp => (henters done c rest hp).new, ?_,
      fun done c rest hp => (henters done c rest hp).superclass, ?_,
      fun done c rest hp => (hfits done c rest hp).members, ?_, hentry⟩
    · intro c hc
      obtain ⟨done, rest, hp⟩ := List.append_of_mem hc
      exact (henters done c rest hp).not_builtIn
    · intro c hc
      obtain ⟨done, rest, hp⟩ := List.append_of_mem hc
      exact (hfits done c rest hp).fieldTypes
    · intro m hm
      obtain ⟨c, hc, hm⟩ := List.mem_flatMap.mp hm
      obtain ⟨done, rest, hp⟩ := List.append_of_mem hc
      exact (hfits done c rest hp).methods m hm

/-- The classes `done` of a program are defined, and their entry methods are noted. -/
structure DefinedUpTo (p : Program) (entryMethod : String) (done : List ClassDecl)
    (d : Definition) : Prop where
  filled : ClassesFilled p.classes done d.scopes.size d
  count : d.entries.length = ((Program.mk done).methods.filter (·.isEntry entryMethod)).length
  entries : ∀ e ∈ d.entries, EntryIn entryMethod p.classes e

theorem Entered.definedUpTo {p : Program} {d : Definition} (h : Entered p.classes d)
    (entryMethod : String) : DefinedUpTo p entryMethod [] d :=
  ⟨h.classesFilled, by rw [h.entries]; rfl, by simp [h.entries]⟩

theorem decides_defineNext {p : Program} {entryMethod : String} {done rest : List ClassDecl}
    {c : ClassDecl} {d : Definition} (h : DefinedUpTo p entryMethod done d)
    (hp : p.classes = done ++ c :: rest) :
    Decides (ClassFits p.classes (c.superclasses done) c) (defineClass entryMethod c) d fun _ d' =>
      DefinedUpTo p entryMethod (done ++ [c]) d' := by
  have hc : p.classes[done.length]? = some c := by simp [hp]
  have hfilled := h.filled
  rw [hp] at hfilled
  have hdecides := decides_defineClass hfilled entryMethod
  rw [← hp] at hdecides
  refine hdecides.mono ?_
  intro _ d' _ hd'
  refine ⟨hd'.1, ?_, fun e he => ?_⟩
  · rw [hd'.2, length_entriesWith, h.count]
    simp [Program.methods]
  · rw [hd'.2] at he
    rcases mem_entriesWith he with hmem | ⟨howner, hmethod, hentry⟩
    · exact h.entries e hmem
    · exact ⟨done.length, c, hc, howner, hmethod, hentry⟩

theorem decides_defineProgram (p : Program) (options : Options) (entryMethod : String) :
    Decides (p.WellFormed entryMethod) (defineProgram entryMethod p)
      (Context.initial options).definition fun e d =>
        ClassesFilled p.classes p.classes d.scopes.size d ∧ EntryIn entryMethod p.classes e := by
  rw [wellFormed_iff]
  unfold defineProgram
  refine (decides_forM (fun done d => Entered done d) Enters p.classes ?_
    (entered_initial options)).bind fun _ d₁ _ h₁ => ?_
  · intro done c rest _ d h
    exact decides_registerClass h c
  · refine (decides_forM (s := d₁) (f := defineClass entryMethod)
      (fun done d => DefinedUpTo p entryMethod done d)
      (fun done c => ClassFits p.classes (c.superclasses done) c) p.classes
      (fun done c rest hp d h => decides_defineNext h hp) (h₁.definedUpTo entryMethod)).bind
      fun _ d₂ _ h₂ => ?_
    rw [← h₂.count]
    refine (decides_findEntry entryMethod d₂).mono ?_
    intro e d₃ _ hd₃
    rw [hd₃.1]
    exact ⟨h₂.filled, h₂.entries e hd₃.2⟩

theorem ClassesFilled.classesDefined {k : ScopeId} (h : ClassesFilled classes classes k d) :
    ClassesDefined classes d where
  table := h.table
  declarations := h.declarations
  sound := h.sound
  isGlobal := h.isGlobal
  classDefined i c hi := by
    obtain ⟨scope, parent, _, hc, _⟩ := h.filled i c hi
    exact ⟨scope, parent, hc.toClassDefined⟩

/-- The definition stage on a fresh context. -/
theorem decides_define (p : Program) (options : Options) :
    Decides (p.WellFormed options.entryMethod) (Context.define p) (.initial options) fun _ c =>
      ClassesFilled p.classes p.classes c.scopes.size c.definition ∧
        ∃ e, c.entry = some e ∧ EntryIn options.entryMethod p.classes e := by
  have hdecide : Decides (p.WellFormed options.entryMethod)
      (defineProgram (Context.initial options).options.entryMethod p)
      (Context.initial options).definition _ :=
    decides_defineProgram p options options.entryMethod
  unfold Decides Context.define
  cases hd : defineProgram (Context.initial options).options.entryMethod p
      (Context.initial options).definition with
  | error e d => exact hdecide.of_error hd
  | ok e d =>
    obtain ⟨hwell, hfilled, hentry⟩ := hdecide.of_ok hd
    have hgrows : Grows d.scopes.size d
        ({ (Context.initial options).withDefinition d with
            entry := some e } : Context).definition :=
      ⟨.refl _, .refl _, fun _ _ => rfl, rfl⟩
    have hall : ClassesFilled (p.classes ++ []) p.classes d.scopes.size d := by
      rw [List.append_nil]
      exact hfilled
    have hstep := hall.step hgrows ⟨hfilled.sound.ordered, hfilled.sound.symbols⟩ fun _ _ => rfl
    rw [List.append_nil] at hstep
    exact ⟨hwell, hstep, e, rfl, hentry⟩

/-- The state that a successful definition stage leaves. -/
theorem classesFilled_of_define {p : Program} {options : Options} {c : Context}
    (h : Context.define p (.initial options) = .ok () c) :
    ClassesFilled p.classes p.classes c.scopes.size c.definition :=
  ((decides_define p options).of_ok h).2.1

end Definition

/-- On a fresh context the definition stage succeeds exactly if the program is well formed. -/
theorem define_succeeds_iff_wellFormed (p : Program) (options : Options) :
    (∃ c, Context.define p (.initial options) = .ok () c) ↔ p.WellFormed options.entryMethod := by
  have hdecide := Definition.decides_defineProgram p options
    (Context.initial options).options.entryMethod
  change _ ↔ p.WellFormed (Context.initial options).options.entryMethod
  rw [← hdecide.exists_ok_iff]
  unfold Context.define
  cases Definition.defineProgram (Context.initial options).options.entryMethod p
      (Context.initial options).definition with
  | ok e d => exact ⟨fun _ => ⟨e, d, rfl⟩, fun _ => ⟨_, rfl⟩⟩
  | error e d =>
    constructor
    · intro h
      obtain ⟨c, hc⟩ := h
      simp at hc
    · intro h
      obtain ⟨a, t, hat⟩ := h
      simp at hat

end IcLir
