import IcLir.Proofs.ProgramScopes
import IcLir.Proofs.WellFormed

/-
  Which class a member comes from. Looking up a member walks the classes from the one asked
  upward (`lookupMember_eq_findSome?`). A method that is found is declared by the nearest class
  that declares it (`exists_declaration`), and a virtual method of a class is one of every
  subclass, with the same names of parameters (`isVirtual_of_isSubtype`).
-/

namespace IcLir

namespace Definition

open TypeTable

section

variable {classes : List ClassDecl} {d : Definition}

variable {c c' : ClassDecl} {scope parent scope' parent' : ScopeId} {name : String} {i j : Nat}
    {s : Symbol} {kind : MethodKind} {type : TypeId}

/-- The symbol `name` that class `type` declares itself. -/
def ownMember? (d : Definition) (name : String) (type : TypeId) : Option Symbol :=
  (d.scopes.classScopes.get? type).bind fun scope => (d.scopes.scope scope).get? name

theorem ClassOf.ownMember?_eq (hc : ClassOf d c type scope parent) (name : String) :
    d.ownMember? name type = (d.scopes.scope scope).get? name := by
  rw [ownMember?, hc.get?]
  rfl

theorem lookupMember_eq_findSome? (h : Scopes classes classes d) (hi : classes[i]? = some c)
    (hc : ClassOf d c (classId i) scope parent) (name : String) :
    d.scopes.lookupMember scope name =
      (classId i :: d.types.ancestors (classId i)).findSome? (d.ownMember? name) := by
  induction i using Nat.strongRecOn generalizing c scope parent with
  | ind i ih =>
    have hin := hc.liesIn
    unfold LiesIn superclass? at hin
    rw [hc.lookupMember_eq h.sound, List.findSome?_cons, hc.ownMember?_eq]
    have hup : d.scopes.lookupMember parent name =
        (d.types.ancestors (classId i)).findSome? (d.ownMember? name) := by
      rcases h.table.superclass i c hi with ⟨_, ha⟩ | ⟨_, j, b, _, hj, hb, _, ha⟩
      · rw [ha] at hin ⊢
        refine ScopeTree.lookupMember_of_not_isClass ?_ name
        rw [show parent = ScopeTree.global from hin, SymbolTable.isClass, h.isGlobal]
        rfl
      · rw [ha] at hin ⊢
        obtain ⟨scope', parent', hb'⟩ := h.classOf j b hb
        obtain rfl : scope' = parent := Option.some.inj (hb'.get?.symm.trans hin)
        exact ih j hj hb hb'
    rw [hup]
    cases (d.scopes.scope scope).get? name <;> rfl

/-! ## The declaration of a method -/

/-- A class has at most one method of a name. -/
theorem MembersDeclared.method?_eq (h : MembersDeclared d scope parent c.fields c.methods)
    {m : MethodDecl} (hm : m ∈ c.methods) : c.method? m.name.name = some m :=
  ClassDecl.method?_of_mem h.nodup hm

/-- The method that a symbol stands for. -/
def declaration? (d : Definition) (s : Symbol) (name : String) : Option MethodDecl :=
  ((d.scopes.classOf? s.scope).bind d.declarations.get?).bind (·.method? name)

/-- Method `m` of class number `i` is the declaration behind the symbol `s`. -/
structure DeclaredBy (d : Definition) (classes : List ClassDecl) (s : Symbol) (i : Nat)
    (c : ClassDecl) (m : MethodDecl) : Prop where
  class_eq : classes[i]? = some c
  mem : m ∈ c.methods
  kind : s.kind = .method m.kind
  owner : (d.scopes.classOf? s.scope).bind d.declarations.get? = some c
  declaration : d.declaration? s m.name.name = some m
  methodOf : ∃ owner parent scope, ClassOf d c (classId i) owner parent ∧
    d.scopes.MethodOf owner m scope

/-- The method symbols of a class are those of its methods. -/
theorem ClassOf.declaredBy (h : Scopes classes classes d) (hi : classes[i]? = some c)
    (hc : ClassOf d c (classId i) scope parent) (hget : (d.scopes.scope scope).get? name = some s)
    (hk : s.kind = .method kind) :
    ∃ m, m.name.name = name ∧ DeclaredBy d classes s i c m ∧
      ∀ known, d.scopes.lookupMember parent name = some known → Overrides d m s.type known := by
  rcases hc.members.member name s hget with ⟨hfield, _⟩ | ⟨m, hm, hname, hkind, hover⟩
  · rw [hfield] at hk
    simp at hk
  · have howner : (d.scopes.classOf? s.scope).bind d.declarations.get? = some c := by
      rw [(h.sound.symbols scope name s hget).scope_eq, ScopeTree.classOf?, hc.kind]
      exact h.declarations i c hi
    obtain ⟨scope', hmethod, _⟩ := hc.methods m hm
    refine ⟨m, hname, ⟨hi, hm, hkind, howner, ?_, scope, parent, scope', hc, hmethod⟩, hover⟩
    rw [declaration?, howner]
    exact hc.members.method?_eq hm

/-- The nearest class from `type` upward that declares a method `name`. -/
def nearestDeclaring? (d : Definition) (type : TypeId) (name : String) : Option ClassDecl :=
  (type :: d.types.ancestors type).findSome? fun t =>
    (d.declarations.get? t).filter fun k => (k.method? name).isSome

/-- A class without a symbol `name` has no method `name`. -/
theorem ClassOf.method?_eq_none (hc : ClassOf d c type scope parent)
    (hnone : (d.scopes.scope scope).get? name = none) : c.method? name = none := by
  rw [ClassDecl.method?, List.find?_eq_none]
  intro m hm hname
  obtain ⟨s, hs, _⟩ := hc.members.method m hm
  have hname : m.name.name = name := by simpa using hname
  rw [hname, hnone] at hs
  simp at hs

/-- The first class on a way upward that has a symbol `name` declares the method. -/
theorem exists_declaration_of_findSome? (h : Scopes classes classes d) (hk : s.kind = .method kind)
    {way : List TypeId} (hway : ∀ type ∈ way, ∃ i c, classes[i]? = some c ∧ type = classId i)
    (hs : way.findSome? (d.ownMember? name) = some s) :
    ∃ i c m, m.name.name = name ∧ DeclaredBy d classes s i c m ∧
      way.findSome? (fun t => (d.declarations.get? t).filter fun k => (k.method? name).isSome) =
        some c := by
  induction way with
  | nil => simp at hs
  | cons type way ih =>
    obtain ⟨i, c, hi, rfl⟩ := hway type (by simp)
    obtain ⟨scope, parent, hc⟩ := h.classOf i c hi
    rw [List.findSome?_cons, hc.ownMember?_eq] at hs
    rw [List.findSome?_cons, h.declarations i c hi]
    cases hget : (d.scopes.scope scope).get? name with
    | none =>
      rw [hget] at hs
      rw [Option.filter_some_neg (by simp [hc.method?_eq_none hget])]
      exact ih (fun t ht => hway t (List.mem_cons_of_mem _ ht)) hs
    | some s' =>
      rw [hget] at hs
      obtain rfl : s' = s := Option.some.inj hs
      obtain ⟨m, hname, hdecl, _⟩ := hc.declaredBy h hi hget hk
      have hmethod : (c.method? name).isSome = true := by
        rw [← hname, hc.members.method?_eq hdecl.mem]
        rfl
      rw [Option.filter_some_pos (p := fun k : ClassDecl => (k.method? name).isSome) hmethod]
      exact ⟨i, c, m, hname, hdecl, rfl⟩

/-- A method that is found is declared by the nearest class that declares it. -/
theorem exists_declaration (h : Scopes classes classes d) (hi : classes[i]? = some c)
    (hc : ClassOf d c (classId i) scope parent) (hs : d.scopes.lookupMember scope name = some s)
    (hk : s.kind = .method kind) :
    ∃ j k m, m.name.name = name ∧ DeclaredBy d classes s j k m ∧
      d.nearestDeclaring? (classId i) name = some k := by
  rw [lookupMember_eq_findSome? h hi hc] at hs
  refine exists_declaration_of_findSome? h hk (fun type htype => ?_) hs
  rcases List.mem_cons.mp htype with rfl | htype
  · exact ⟨i, c, hi, rfl⟩
  · obtain ⟨j, k, _, hj, rfl⟩ := h.table.mem_ancestors hi htype
    exact ⟨j, k, hj, rfl⟩

/-! ## Overriding -/

/-- What a class and its subclasses agree on for a virtual method: that it is virtual, and the
    names of its parameters. -/
def IsVirtual (d : Definition) (name : String) (paramNames : List String) (s : Symbol) : Prop :=
  s.kind = .method .virtual ∧ ∃ m, d.declaration? s name = some m ∧ m.paramNames = paramNames

theorem eq_virtual_of_isStatic (h : kind.isStatic = false) : kind = .virtual := by
  cases kind <;> simp_all [MethodKind.isStatic]

/-- A class has the virtual methods of its superclass, its own or inherited. -/
theorem ClassOf.isVirtual_of_parent (h : Scopes classes classes d) (hi : classes[i]? = some c)
    (hc : ClassOf d c (classId i) scope parent) {paramNames : List String} {known : Symbol}
    (hknown : d.scopes.lookupMember parent name = some known)
    (hvirtual : IsVirtual d name paramNames known) :
    ∃ s, d.scopes.lookupMember scope name = some s ∧ IsVirtual d name paramNames s := by
  rw [hc.lookupMember_eq h.sound, hknown]
  cases hget : (d.scopes.scope scope).get? name with
  | none => exact ⟨known, rfl, hvirtual⟩
  | some s =>
    refine ⟨s, rfl, ?_⟩
    obtain ⟨hk, m', hm', hparams⟩ := hvirtual
    rcases hc.members.member name s hget with ⟨_, hnone⟩ | ⟨_, _, _, hkind, _⟩
    · rw [hnone] at hknown
      simp at hknown
    · obtain ⟨m, hname, hdecl, hover⟩ := hc.declaredBy h hi hget hkind
      obtain ⟨⟨kind, hkind', hstatic⟩, _, hkeeps⟩ := hover known hknown
      obtain rfl : kind = .virtual := SymbolKind.method.inj (hkind'.symm.trans hk)
      refine ⟨?_, m, hname ▸ hdecl.declaration, ?_⟩
      · rw [hdecl.kind, eq_virtual_of_isStatic hstatic.symm]
      · rcases hkeeps with hkeeps | hkeeps
        · rw [← hstatic] at hkeeps
          simp [MethodKind.isStatic] at hkeeps
        · unfold keepsParamNames at hkeeps
          rw [← hparams]
          have hm' : ((d.scopes.classOf? known.scope).bind d.declarations.get?).bind
              (·.method? m.name.name) = some m' := hname ▸ hm'
          dsimp only at hkeeps
          rw [hm'] at hkeeps
          simpa [eq_comm] using hkeeps

/-- What holds of a member, and passes from the member that a class finds in its superclass to
    the one that it has itself, holds of the member of every subclass. -/
theorem exists_lookupMember_of_isSubtype (h : Scopes classes classes d) {motive : Symbol → Prop}
    (hstep : ∀ {i c scope parent known}, classes[i]? = some c →
      ClassOf d c (classId i) scope parent → d.scopes.lookupMember parent name = some known →
      motive known → ∃ s, d.scopes.lookupMember scope name = some s ∧ motive s)
    (hc : ClassOf d c (classId i) scope parent) (hj : classes[j]? = some c')
    (hc' : ClassOf d c' (classId j) scope' parent')
    (hsub : d.types.isSubtype (classId j) (classId i) = true)
    (hs : d.scopes.lookupMember scope name = some s) (hmotive : motive s) :
    ∃ s', d.scopes.lookupMember scope' name = some s' ∧ motive s' := by
  let goal (n : Nat) : Prop := ∀ c' scope' parent', classes[n]? = some c' →
    ClassOf d c' (classId n) scope' parent' →
    ∃ s', d.scopes.lookupMember scope' name = some s' ∧ motive s'
  have hall : goal j := by
    refine h.table.subclass_induction (motive := goal) (i := i) ?_ ?_ hj hsub
    · intro c₁ scope₁ parent₁ hi₁ hc₁
      obtain rfl : scope = scope₁ := Option.some.inj (hc.get?.symm.trans hc₁.get?)
      exact ⟨s, hs, hmotive⟩
    · intro n k c₁ hn hsuper ih c₂ scope₂ parent₂ hn₂ hc₂
      have hin := hc₂.liesIn
      unfold LiesIn at hin
      rw [hsuper] at hin
      rcases h.table.superclass?_cases hn with hnone | ⟨k', b, _, hb, hsome⟩
      · rw [hnone] at hsuper
        simp at hsuper
      · rw [hsuper] at hsome
        obtain rfl : k = k' := classId_inj (Option.some.inj hsome)
        obtain ⟨scope₃, parent₃, hb'⟩ := h.classOf k b hb
        obtain rfl : scope₃ = parent₂ := Option.some.inj (hb'.get?.symm.trans hin)
        obtain ⟨known, hknown, hv⟩ := ih b scope₃ parent₃ hb hb'
        exact hstep hn₂ hc₂ hknown hv
  exact hall c' scope' parent' hj hc'

/-- A virtual method of a class is a virtual method of every subclass, with the same names of
    parameters. -/
theorem isVirtual_of_isSubtype (h : Scopes classes classes d)
    (hc : ClassOf d c (classId i) scope parent) (hj : classes[j]? = some c')
    (hc' : ClassOf d c' (classId j) scope' parent')
    (hsub : d.types.isSubtype (classId j) (classId i) = true) {paramNames : List String}
    (hs : d.scopes.lookupMember scope name = some s) (hvirtual : IsVirtual d name paramNames s) :
    ∃ s', d.scopes.lookupMember scope' name = some s' ∧ IsVirtual d name paramNames s' :=
  exists_lookupMember_of_isSubtype h (fun hi hc => hc.isVirtual_of_parent h hi) hc hj hc' hsub hs
    hvirtual

/-- No class declares a member that its superclass has as a field. -/
theorem ClassOf.lookupMember_of_field (h : Scopes classes classes d)
    (hc : ClassOf d c type scope parent) {known : Symbol}
    (hknown : d.scopes.lookupMember parent name = some known) (hk : known.kind = .field) :
    d.scopes.lookupMember scope name = some known := by
  rw [hc.lookupMember_eq h.sound, hknown]
  cases hget : (d.scopes.scope scope).get? name with
  | none => rfl
  | some s =>
    rcases hc.members.member name s hget with ⟨_, hnone⟩ | ⟨m, _, _, _, hover⟩
    · rw [hnone] at hknown
      simp at hknown
    · obtain ⟨kind, hkind, _⟩ := (hover known hknown).kind
      rw [hk] at hkind
      simp at hkind

/-- A field of a class is the same field in every subclass. -/
theorem lookupMember_field_of_isSubtype (h : Scopes classes classes d)
    (hc : ClassOf d c (classId i) scope parent) (hj : classes[j]? = some c')
    (hc' : ClassOf d c' (classId j) scope' parent')
    (hsub : d.types.isSubtype (classId j) (classId i) = true)
    (hs : d.scopes.lookupMember scope name = some s) (hk : s.kind = .field) :
    d.scopes.lookupMember scope' name = some s := by
  obtain ⟨s', hs', heq⟩ := exists_lookupMember_of_isSubtype h (motive := (· = s))
    (fun {_ _ _ _ known} _ hc hknown heq =>
      ⟨known, hc.lookupMember_of_field h hknown (heq ▸ hk), heq⟩)
    hc hj hc' hsub hs rfl
  exact heq ▸ hs'

end

end Definition

end IcLir
