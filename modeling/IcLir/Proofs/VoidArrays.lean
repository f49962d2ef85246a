import IcLir.Proofs.CheckEffects
import IcLir.Proofs.CompileOutcome
import IcLir.Proofs.DefinitionChanges
import IcLir.Proofs.TypeInterning

/-
  Arrays of void. No value has the type `void[]`, and the element type of a `new` is checked not
  to be `void`. No other place that a type is written at has such a check: the table of an
  accepted program holds `void[]` exactly if a type with `void` under its brackets is written
  somewhere. Each stage is described by the types that it reads off the program.
-/

namespace IcLir

/-- `void[]`, or an array over it. -/
def TypeExpr.isVoidArray (e : TypeExpr) : Bool := e.base = .void && 0 < e.dims

/-- The type written in a `new` of an array. -/
def Expr.elementType? : Expr → Option TypeExpr
  | .newArray _ element _ => some element
  | _ => none

/-- The types written in a class outside of expressions. -/
def ClassDecl.declaredTypes (c : ClassDecl) : List TypeExpr :=
  c.fields.map (·.type) ++ c.methods.flatMap fun m =>
    m.headTypes ++ (Stmt.nodesOfList m.body).filterMap Stmt.declaredType?

/-- The element types of the arrays that the bodies of a class create. -/
def ClassDecl.createdTypes (c : ClassDecl) : List TypeExpr :=
  (c.methods.filter (·.kind ≠ .library)).flatMap fun m =>
    (Stmt.exprsOfList m.body).filterMap Expr.elementType?

/-- The types written in a program: of fields, results, parameters and locals, and of the
    elements of new arrays. -/
def Program.writtenTypes (p : Program) : List TypeExpr :=
  p.classes.flatMap ClassDecl.declaredTypes ++ p.classes.flatMap ClassDecl.createdTypes

namespace TypeTable

def HasVoidArray (t : TypeTable) : Prop := TypeKind.array TypeId.void ∈ t.kinds

instance (t : TypeTable) : Decidable t.HasVoidArray := inferInstanceAs (Decidable (_ ∈ _))

/-- `t'` is `t` after the types `written` were read off the program. It keeps the number of
    `void`, and has `void[]` only if that was there or is part of one of them. -/
def Gains (t : TypeTable) (written : List TypeExpr) (t' : TypeTable) : Prop :=
  t.kind? TypeId.void = some (.primitive .void) →
    t'.kind? TypeId.void = some (.primitive .void) ∧
      (t'.HasVoidArray ↔ t.HasVoidArray ∨ ∃ e ∈ written, e.isVoidArray = true)

section

variable {t t' t'' : TypeTable} {written more : List TypeExpr}

theorem gains_refl (t : TypeTable) : t.Gains [] t := fun hvoid => ⟨hvoid, by simp⟩

theorem Gains.trans (h : t.Gains written t') (h' : t'.Gains more t'') :
    t.Gains (written ++ more) t'' := by
  intro hvoid
  obtain ⟨hvoid', harray⟩ := h hvoid
  obtain ⟨hvoid'', harray'⟩ := h' hvoid'
  refine ⟨hvoid'', ?_⟩
  rw [harray', harray]
  simp only [List.mem_append, or_and_right, exists_or, or_assoc]

theorem Gains.congr (h : t.Gains written t') (hmem : ∀ e, e ∈ more ↔ e ∈ written) :
    t.Gains more t' := by
  intro hvoid
  simpa only [hmem] using h hvoid

theorem gains_push (t : TypeTable) {k : TypeKind} (hk : k ≠ .array TypeId.void) :
    t.Gains [] (t.push k).2 := by
  intro hvoid
  have hlt : TypeId.void < t.size := (List.getElem?_eq_some_iff.mp hvoid).1
  refine ⟨(kind?_push_of_lt t k hlt).trans hvoid, ?_⟩
  simp [HasVoidArray, push, hk.symm]

theorem gains_intern (t : TypeTable) {k : TypeKind} (hk : k ≠ .array TypeId.void) :
    t.Gains [] (t.intern k).2 := by
  unfold intern
  split
  · exact gains_refl t
  · exact gains_push t hk

/-- An array type never has the number of `void`. -/
theorem arrayOf_ne_void (t : TypeTable) (element : TypeId)
    (h : t.kind? TypeId.void = some (.primitive .void)) :
    (t.arrayOf element).1 ≠ TypeId.void := by
  intro hid
  have harray := kind?_intern_self t (.array element)
  have hlt : TypeId.void < t.size := (List.getElem?_eq_some_iff.mp h).1
  rw [show (t.intern (.array element)).1 = TypeId.void from hid, kind?_intern_of_lt t _ hlt, h]
    at harray
  simp at harray

theorem gains_arrayOf (t : TypeTable) {element : TypeId} (h : element ≠ TypeId.void) :
    t.Gains [] (t.arrayOf element).2 :=
  gains_intern t fun heq => h (TypeKind.array.inj heq)

theorem gains_nest (t : TypeTable) {base : TypeId} (h : base ≠ TypeId.void) (dims : Nat) :
    t.Gains [] (t.nest base dims).2 := by
  induction dims generalizing t base with
  | zero => exact gains_refl t
  | succ dims ih =>
    intro hvoid
    have hnest := ih (t.arrayOf base).2 (arrayOf_ne_void t base hvoid)
    exact (gains_arrayOf t h).trans hnest hvoid

theorem hasVoidArray_arrayOf (t : TypeTable) : (t.arrayOf TypeId.void).2.HasVoidArray :=
  List.mem_of_getElem? (kind?_intern_self t (.array TypeId.void))

/-- The first pair of brackets over `void` enters `void[]`. -/
theorem gains_nest_void (t : TypeTable) {e : TypeExpr} (h : e.base = .void) :
    t.Gains [e] (t.nest TypeId.void e.dims).2 := by
  cases hdims : e.dims with
  | zero => exact fun hvoid => ⟨hvoid, by simp [nest, TypeExpr.isVoidArray, hdims]⟩
  | succ dims =>
    intro hvoid
    have hlt : TypeId.void < t.size := (List.getElem?_eq_some_iff.mp hvoid).1
    have hvoid' := (kind?_intern_of_lt t (.array TypeId.void) hlt).trans hvoid
    obtain ⟨hvoid'', harray⟩ :=
      gains_nest (t.arrayOf TypeId.void).2 (arrayOf_ne_void t TypeId.void hvoid) dims hvoid'
    refine ⟨hvoid'', ?_⟩
    have hafter : (t.nest TypeId.void (dims + 1)).2.HasVoidArray :=
      harray.mpr (.inl (hasVoidArray_arrayOf t))
    simp [hafter, TypeExpr.isVoidArray, h, hdims]

theorem base?_ne_void {b : BaseType} {id : TypeId} (hb : b ≠ .void) (h : t.base? b = some id)
    (hvoid : t.kind? TypeId.void = some (.primitive .void)) : id ≠ TypeId.void := by
  cases b with
  | int => obtain rfl := Option.some.inj h; decide
  | boolean => obtain rfl := Option.some.inj h; decide
  | string => obtain rfl := Option.some.inj h; decide
  | void => exact absurd rfl hb
  | named name =>
    rintro rfl
    obtain ⟨hlt, hnamed, _⟩ := List.findIdx?_eq_some_iff_getElem.mp h
    rw [kind?, List.getElem?_eq_getElem hlt] at hvoid
    rw [Option.some.inj hvoid] at hnamed
    simp [TypeKind.isClassNamed] at hnamed

theorem gains_resolve {e : TypeExpr} {id : TypeId} (h : t.resolve e = .ok (id, t')) :
    t.Gains [e] t' := by
  obtain ⟨base, hbase, hnest⟩ := resolve_eq_ok.mp h
  obtain rfl : (t.nest base e.dims).2 = t' := congrArg Prod.snd hnest
  by_cases hvoid : e.base = .void
  · rw [hvoid] at hbase
    obtain rfl := Option.some.inj hbase
    exact gains_nest_void t hvoid
  · intro hkind
    obtain ⟨hkept, harray⟩ := gains_nest t (base?_ne_void hvoid hbase hkind) e.dims hkind
    exact ⟨hkept, by simpa [TypeExpr.isVoidArray, hvoid] using harray⟩

theorem gains_addClass {name : String} {superclass : Option String} {id : TypeId}
    (h : t.addClass name superclass = .ok (id, t')) : t.Gains [] t' := by
  unfold addClass at h
  split at h
  · simp at h
  · split at h
    · obtain ⟨-, rfl⟩ := Prod.mk.inj (Except.ok.inj h)
      exact gains_push t (by simp)
    · split at h
      · simp at h
      · obtain ⟨-, rfl⟩ := Prod.mk.inj (Except.ok.inj h)
        exact gains_push t (by simp)

theorem gains_of_reads (h : t.Reads written t') : t.Gains written t' := by
  induction h with
  | nil => exact gains_refl _
  | resolve hr _ ih => exact (gains_resolve hr).trans ih
  | intern hk _ ih => exact (gains_intern _ hk).trans ih
  | addClass ha _ ih => exact (gains_addClass ha).trans ih

end

end TypeTable

namespace Typing

/-- The type that a change reads off the program. -/
def Effect.type? : Effect → Option TypeExpr
  | .resolve e => some e
  | .array | .record _ | .refer .. | .view => none

theorem Effect.type?_eq_some {x : Effect} {e : TypeExpr} :
    x.type? = some e ↔ x = .resolve e := by
  cases x <;> simp [type?]

theorem gains_of_follows {resolves : String → Nat → Resolution → Prop} {es : List Effect}
    {t t' : Typing} (h : Follows resolves es t t') :
    t.types.Gains (es.filterMap Effect.type?) t'.types := by
  induction h with
  | nil => exact TypeTable.gains_refl _
  | @cons e _ _ _ _ hchange _ ih =>
    cases e with
    | resolve e =>
      obtain ⟨id, types, hr, rfl⟩ := hchange
      exact (TypeTable.gains_resolve hr).trans ih
    | array =>
      obtain ⟨element, hne, rfl⟩ := hchange
      exact (TypeTable.gains_arrayOf _ hne).trans ih
    | record id => obtain ⟨_, rfl⟩ := hchange; exact ih
    | refer id name => obtain ⟨_, _, rfl⟩ := hchange; exact ih
    | view => obtain ⟨_, rfl⟩ := hchange; exact ih

theorem resolve_mem_effects {x : Expr} {e : TypeExpr} :
    Effect.resolve e ∈ x.effects ↔ x.elementType? = some e := by
  cases x <;> simp [Expr.effects, Expr.elementType?, eq_comm]

/-- The return type is looked up once more, which enters nothing that the head did not. -/
theorem gains_checkProgram {p : Program} {t t' : Typing} (h : checkProgram p t = .ok () t') :
    t.types.Gains (p.bodies.flatMap fun m =>
      m.returnType :: (Stmt.exprsOfList m.body).filterMap Expr.elementType?) t'.types := by
  have hmade := (makes_checkProgram p).made t
  rw [h] at hmade
  obtain ⟨l, hl, hes, hfollows⟩ := hmade
  refine (gains_of_follows hfollows).congr fun e => ?_
  have hread : e ∈ l.filterMap Effect.type? ↔ Effect.resolve e ∈ l := by
    rw [List.mem_filterMap]
    constructor
    · intro hx
      obtain ⟨x, hx, htype⟩ := hx
      rwa [← Effect.type?_eq_some.mp htype]
    · exact fun he => ⟨_, he, rfl⟩
  have hmade : Effect.resolve e ∈ l ↔ Effect.resolve e ∈ programEffects p :=
    ⟨hl _, fun he => (hes _ he).resolve_right Effect.noConfusion⟩
  rw [hread, hmade]
  simp [programEffects, resolve_mem_effects]

end Typing

section

variable {options : Options} {p : Program}

theorem hasVoidArray_iff_of_analyzed {c : Context} (h : analyzed options p = .ok c) :
    c.types.HasVoidArray ↔ ∃ e ∈ p.writtenTypes, e.isVoidArray = true := by
  obtain ⟨c₁, c₂, hdefine, hcheck, hlayOut⟩ := exists_stages_of_analyzed h
  obtain ⟨entry, d, hd, rfl⟩ := define_eq_ok_iff.mp hdefine
  obtain ⟨t, ht, rfl⟩ := check_eq_ok_iff.mp hcheck
  obtain ⟨layouts, _, rfl⟩ := layOut_eq_ok_iff.mp hlayOut
  have hglobal : 0 < (Context.initial options).definition.scopes.size := Nat.one_pos
  have hreads := ((Definition.changes_defineProgram hglobal _ p).of_ok hd).2.1
  have hgains := (TypeTable.gains_of_reads hreads).trans (Typing.gains_checkProgram ht)
  have hinitial : ¬ TypeTable.initial.HasVoidArray := by decide
  refine (hgains rfl).2.trans ((or_iff_right hinitial).trans (exists_congr fun e => ?_))
  simp only [Program.writtenTypes, Program.bodies, Program.methods, ClassDecl.declaredTypes,
    ClassDecl.createdTypes, ClassDecl.readTypes, MethodDecl.headTypes, List.mem_append,
    List.mem_flatMap, List.mem_cons, List.mem_filter]
  grind

/-- The type table of an accepted program has an array of void exactly if a type with `void` under
    brackets is written in the program: as the type of a field, a result, a parameter or a local,
    or under the brackets of a `new`. -/
theorem void_arrays_are_those_written {r : Analysis} (h : analyze options p = .ok r) :
    ∃ c, analyzed options p = .ok c ∧ r.typeTable = c.types.render ∧
      (TypeKind.array TypeId.void ∈ c.types.kinds ↔
        ∃ e ∈ p.writtenTypes, e.base = .void ∧ 0 < e.dims) := by
  obtain ⟨c, hc, _, htable⟩ := exists_context_of_analyze h
  refine ⟨c, hc, htable, (hasVoidArray_iff_of_analyzed hc).trans ?_⟩
  simp [TypeExpr.isVoidArray]

end

namespace VoidRows

open Shapes

def entry (body : List Stmt) : MethodDecl := mainOf 1 body

/-- `class Main { static void main(string[] args) { void[][] rows = new void[][3]; } }` -/
def created : Program where
  classes := [{
    name := name "Main", superclass := none, fields := []
    methods := [entry [.declare (node 10) ⟨.void, 2, line 1⟩ (name "rows")
      (some (.newArray (node 20) ⟨.void, 1, line 1⟩ (.literal (node 21) (.int 3))))]] }]

/-- `class Main { void[] a; static void main(string[] args) {} }` -/
def declared : Program where
  classes := [{
    name := name "Main", superclass := none
    fields := [⟨⟨.void, 1, line 1⟩, name "a"⟩]
    methods := [entry []] }]

end VoidRows

/-- The check of `new` looks at the element type as a whole: `new void[][3]` passes it. -/
theorem void_arrays_are_those_written_created :
    ∃ r c, analyze {} VoidRows.created = .ok r ∧ analyzed {} VoidRows.created = .ok c ∧
      TypeKind.array TypeId.void ∈ c.types.kinds := by
  have hok : (analyze {} VoidRows.created).toOption.isSome = true := by decide +kernel
  cases hr : analyze {} VoidRows.created with
  | error e => rw [hr] at hok; simp [Except.toOption] at hok
  | ok r =>
    obtain ⟨c, hc, _, hiff⟩ := void_arrays_are_those_written hr
    exact ⟨r, c, rfl, hc, hiff.mpr ⟨⟨.void, 2, Shapes.line 1⟩, by decide, by decide⟩⟩

/-- A field of type `void[]` is accepted, and its type is in the table. -/
theorem void_array_is_accepted :
    (analyze {} VoidRows.declared).toOption.isSome = true ∧
      (analyzed {} VoidRows.declared).toOption.any
        (fun c => decide (TypeKind.array TypeId.void ∈ c.types.kinds)) = true := by
  decide +kernel

end IcLir
