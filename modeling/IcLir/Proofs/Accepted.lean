import IcLir.Compile
import IcLir.Proofs.CheckRules
import IcLir.Proofs.LayoutTables

/-
  The analysis of a whole program. It ends with a rejection, or with a context in which all
  classes have their scopes and layouts and all bodies are well typed (`Accepts`).
-/

namespace IcLir

namespace Definition

open TypeTable

section

variable {d : Definition} {types : TypeTable}

/-- The definitions that the stages after the definition stage work with. -/
def withTypes (d : Definition) (types : TypeTable) : Definition :=
  ⟨types, d.scopes, d.declarations, [], 0⟩

theorem grows_withTypes (he : d.types.Extends types) (k : ScopeId) :
    Grows k d (d.withTypes types) :=
  ⟨he, .refl _, fun _ _ => rfl, rfl⟩

theorem ClassOf.withTypes (he : d.types.Extends types) (hsound : Sound d) {c : ClassDecl}
    {type : TypeId} {scope parent : ScopeId} (h : ClassOf d c type scope parent) :
    ClassOf (d.withTypes types) c type scope parent where
  toClassDefined := h.toClassDefined.step hsound (grows_withTypes he d.scopes.size) h.lt rfl
    fun _ _ => rfl
  methods m hm := by
    obtain ⟨s, hm', hvars⟩ := h.methods m hm
    exact ⟨s, hm', hvars.step hsound (grows_withTypes he d.scopes.size) fun _ _ => rfl⟩

theorem Scopes.withTypes {classes : List ClassDecl} (h : Scopes classes classes d)
    (he : d.types.Extends types) : Scopes classes classes (d.withTypes types) where
  table := h.table.extend he
  declarations := h.declarations
  sound := ⟨h.sound.ordered, h.sound.symbols⟩
  nonempty := h.nonempty
  isGlobal := h.isGlobal
  classOf i c hi := by
    obtain ⟨scope, parent, hc⟩ := h.classOf i c hi
    exact ⟨scope, parent, hc.withTypes he h.sound⟩
  entries := by simp [Definition.withTypes]

theorem ClassesFilled.withTypes {p : Program} {k : ScopeId}
    (h : ClassesFilled p.classes p.classes k d) (he : d.types.Extends types) :
    ClassesFilled p.classes p.classes k (d.withTypes types) := by
  have hall : ClassesFilled (p.classes ++ []) p.classes k d := by
    rw [List.append_nil]
    exact h
  have hstep := hall.step (grows_withTypes he k)
    ⟨h.sound.ordered, h.sound.symbols⟩ fun _ _ => rfl
  rw [List.append_nil] at hstep
  exact hstep

end

end Definition

namespace Context

open Pass Definition Typing

/-- The context of an analysed program. -/
structure Accepts (c : Context) (p : Program) : Prop where
  defined : Defined p c.definition
  typed : BodiesTyped c.typing c.definition p.classes
  laidOut : LaidOut c.definition p.classes p.classes.length c.layouts
  entry : ∃ e, c.entry = some e ∧ IsEntryOf p e

theorem meets_define {p : Program} (hp : p.DistinctNodes) (options : Options) :
    Meets CompileError.IsRejection (define p) (.initial options) fun _ c =>
      Defined p c.definition ∧ ∃ e, c.entry = some e ∧ IsEntryOf p e := by
  have h := meets_defineProgram hp options options.entryMethod
  unfold Meets define
  cases hd : defineProgram (Context.initial options).options.entryMethod p
      (Context.initial options).definition with
  | error e d => exact h.of_error hd
  | ok entry d =>
    obtain ⟨hdefined, hentry⟩ := h.of_ok hd
    exact ⟨hdefined.withTypes (.refl _), entry, rfl, hentry⟩

theorem decides_check {p : Program} (hp : p.DistinctNodes) {c : Context}
    (h : Defined p c.definition) {k : ScopeId}
    (hfilled : ClassesFilled p.classes p.classes k c.definition) :
    Decides p.WellTyped (check p) c fun _ c' =>
      Defined p c'.definition ∧ ClassesFilled p.classes p.classes k c'.definition ∧
        BodiesTyped c'.typing c'.definition p.classes ∧ c'.entry = c.entry := by
  have hcheck := decides_checkProgram h hfilled hp (t := c.typing) (.refl _) rfl
  unfold Decides check
  cases ht : checkProgram p c.typing with
  | error e t => exact hcheck.of_error ht
  | ok u t =>
    obtain ⟨hfits, hwork, htyped⟩ := hcheck.of_ok ht
    have hextends : c.types.Extends t.types := hwork.types
    dsimp only
    rw [toContext_of_ok ht]
    refine ⟨hfits, h.withTypes hextends, hfilled.withTypes hextends, fun i k hi m hm hkind => ?_,
      rfl⟩
    have hstep : Step [] t (c.withTyping t).typing :=
      ⟨.refl _, fun _ _ => rfl, fun _ _ => rfl⟩
    obtain ⟨owner, parent, scope, returnType, hclass, hmethod, hbody⟩ := htyped i k hi m hm hkind
    exact ⟨owner, parent, scope, returnType, hclass.withTypes hextends h.sound,
      ⟨hmethod.toMethodOf, hmethod.returnType⟩, hbody.step hstep (by simp)⟩

/-- The typing stage after the definition stage on a fresh context. -/
theorem decides_check_of_define {p : Program} (hp : p.DistinctNodes) {options : Options}
    {c : Context} (hdefine : define p (.initial options) = .ok () c) :
    Decides p.WellTyped (check p) c fun _ c' =>
      Defined p c'.definition ∧
        ClassesFilled p.classes p.classes c.scopes.size c'.definition ∧
        BodiesTyped c'.typing c'.definition p.classes ∧ c'.entry = c.entry :=
  decides_check hp ((meets_define hp options).of_ok hdefine).1 (classesFilled_of_define hdefine)

/-- The layouts do not matter to the bodies. -/
theorem bodiesTyped_withLayouts {c : Context} {d : Definition} {classes : List ClassDecl}
    (h : BodiesTyped c.typing d classes) (layouts : LayoutTable) :
    BodiesTyped (typing { c with layouts := layouts }) d classes := by
  have hstep : Step [] c.typing (typing { c with layouts := layouts }) :=
    ⟨.refl _, fun _ _ => rfl, fun _ _ => rfl⟩
  exact fun i k hi m hm hkind => (h i k hi m hm hkind).step hstep (by simp)

theorem meets_layOut {p : Program} {c : Context} (h : Defined p c.definition)
    {allowed : CompileError → Prop} :
    Meets allowed layOut c fun _ c' =>
      LaidOut c.definition p.classes p.classes.length c'.layouts ∧
        c' = { c with layouts := c'.layouts } := by
  obtain ⟨table, hbuild, hlaid⟩ := exists_build h.classesDefined
  have hbuild : LayoutTable.build c.types c.scopes = .ok table := hbuild
  unfold layOut
  rw [meets_bind, meets_get, hbuild]
  exact ⟨hlaid, rfl⟩

theorem meets_analyze {p : Program} (hp : p.DistinctNodes) (options : Options) :
    Meets CompileError.IsRejection (analyze p) (.initial options) fun _ c => c.Accepts p := by
  unfold analyze
  refine ((decides_define p options).and_meets (meets_define hp options)).meets.bind ?_
  rintro _ c₁ ⟨⟨hfilled, _⟩, hdefined, hentry⟩
  refine (decides_check hp hdefined hfilled).meets.bind ?_
  rintro _ c₂ ⟨hdefined₂, _, htyped, hentry₂⟩
  refine (meets_layOut hdefined₂).mono ?_
  rintro _ c₃ ⟨hlaid, heq⟩
  rw [heq]
  exact ⟨hdefined₂, bodiesTyped_withLayouts htyped c₃.layouts, hlaid, hentry₂ ▸ hentry⟩

end Context

end IcLir
